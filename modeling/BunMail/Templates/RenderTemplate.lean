import BunMail.Lib.CodeUnits
import Mathlib.Algebra.BigOperators.Group.List.Basic
import Mathlib.Tactic

/-!
# Template rendering

`renderTemplate` of `template.service.ts`.  A string is the list of its code units, so that its length
is the source's own.  The text is cut into its placeholders and what stands between them; the rendered
text replaces every placeholder of an own variable at once.

The code keeps a running length that starts at the length of the template, and gives up as soon as it
passes the limit.  The placeholders it has not reached yet count as they stand, so it also gives up on
texts that end up short enough.
-/

namespace BunMail.Templates

/-! ## Placeholders -/

/-- `\w`. -/
def isWord (u : UInt16) : Bool := CodeUnits.isDigit u || CodeUnits.isLetter u || u == 0x5f

/-- What follows `front`. -/
def after? (front s : CodeUnits) : Option CodeUnits := if front <+: s then some (s.drop front.length) else none

/-- So many opening braces, and as many closing ones. -/
def opening (n : ℕ) : CodeUnits := List.replicate n 0x7b

def closing (n : ℕ) : CodeUnits := List.replicate n 0x7d

/-- The name of a placeholder of `n` braces at the start of the text.  A name ends where the word does,
so there is no shorter one. -/
def placeholder? (n : ℕ) (s : CodeUnits) : Option CodeUnits :=
  (after? (opening n) s).bind fun rest =>
    if rest.takeWhile isWord ≠ [] ∧ closing n <+: rest.dropWhile isWord then
      some (rest.takeWhile isWord)
    else none

/-- A unit between the placeholders, or a placeholder in one of its forms. -/
inductive Piece
  | unit (u : UInt16)
  | raw (name : CodeUnits)
  | escaped (name : CodeUnits)
  deriving DecidableEq

/-- The piece as it stands in the template. -/
def Piece.source : Piece → CodeUnits
  | .unit u => [u]
  | .raw name => opening 3 ++ name ++ closing 3
  | .escaped name => opening 2 ++ name ++ closing 2

/-- `PLACEHOLDER_RE` at the start of a text. -/
def match? (s : CodeUnits) : Option Piece :=
  ((placeholder? 3 s).map .raw).or ((placeholder? 2 s).map .escaped)

/-- The matches of `PLACEHOLDER_RE` from left to right and what stands between them; the first `skip`
units belong to the match before. -/
def scan : (skip : ℕ) → CodeUnits → List Piece
  | _, [] => []
  | skip + 1, _ :: s => scan skip s
  | 0, u :: s =>
    match match? (u :: s) with
    | some piece => piece :: scan (piece.source.length - 1) s
    | none => .unit u :: scan 0 s

/-- The pieces of a template. -/
def pieces (template : CodeUnits) : List Piece := scan 0 template

/-! ## Values -/

/-- `HTML_ESCAPES`. -/
def HTML_ESCAPES (u : UInt16) : Option CodeUnits :=
  if u = 0x26 then some (CodeUnits.of "&amp;")
  else if u = 0x3c then some (CodeUnits.of "&lt;")
  else if u = 0x3e then some (CodeUnits.of "&gt;")
  else if u = 0x22 then some (CodeUnits.of "&quot;")
  else if u = 0x27 then some (CodeUnits.of "&#39;")
  else none

/-- `raw.replace(/[&<>"']/g, …)`. -/
def escapeHtml (value : CodeUnits) : CodeUnits := value.flatMap fun u => (HTML_ESCAPES u).getD [u]

section Rendering

variable (vars : CodeUnits → Option CodeUnits) (maxLength : ℕ) (html : Bool)

/-- What replaces a piece: nothing, unless it is a placeholder of an own variable. -/
def Piece.value : Piece → Option CodeUnits
  | .unit _ => none
  | .raw name => vars name
  | .escaped name => (vars name).map fun raw => if html then escapeHtml raw else raw

/-- The state of the replacement: the running length, and the text so far. -/
abbrev Running := ℤ × CodeUnits

/-- One turn of the replacement. -/
def replaceTurn (s : Running) (piece : Piece) : Except ℕ Running :=
  match piece.value vars html with
  | none => .ok (s.1, s.2 ++ piece.source)
  | some value =>
    if maxLength < s.1 + (value.length - piece.source.length) then .error maxLength
    else .ok (s.1 + (value.length - piece.source.length), s.2 ++ value)

/-- `renderTemplate`; the error is the `TemplateTooLargeError` of the limit. -/
def renderTemplate (template : CodeUnits) : Except ℕ CodeUnits :=
  match (pieces template).foldlM (replaceTurn vars maxLength html) (template.length, []) with
  | .error e => .error e
  | .ok (_, rendered) => if maxLength < rendered.length then .error maxLength else .ok rendered

/-! ## What it should give -/

/-- The piece after the replacement. -/
def Piece.rendered (piece : Piece) : CodeUnits := (piece.value vars html).getD piece.source

/-- **The template with every placeholder of an own variable replaced at once.** -/
def substituted (template : CodeUnits) : CodeUnits :=
  (pieces template).flatMap (Piece.rendered vars html)

/-- A text in which every character that HTML gives a meaning belongs to an escape sequence. -/
def Escaped (s : CodeUnits) : Prop :=
  ∃ parts : List CodeUnits, s = parts.flatten ∧
    ∀ part ∈ parts, (∃ u, HTML_ESCAPES u = some part) ∨ ∃ u, HTML_ESCAPES u = none ∧ part = [u]

/-- A piece is rendered as it stands in the template, as the value of a raw placeholder, or escaped. -/
def Piece.Safe (piece : Piece) : Prop :=
  piece.rendered vars html = piece.source ∨
    (∃ name, piece = .raw name ∧ vars name = some (piece.rendered vars html)) ∨
    Escaped (piece.rendered vars html)

/-- By how much a piece grows. -/
def Piece.growth (piece : Piece) : ℤ :=
  (piece.rendered vars html).length - piece.source.length

/-- By how much some pieces grow. -/
def growth (ps : List Piece) : ℤ := (ps.map (Piece.growth vars html)).sum

/-- No replacement brings the template above the limit, the placeholders after it as they stand. -/
def NeverAbove (length : ℤ) (all : List Piece) : Prop :=
  ∀ ps piece, ps ++ [piece] <+: all → (piece.value vars html).isSome = true →
    length + growth vars html (ps ++ [piece]) ≤ maxLength

end Rendering

/-! ## The pieces of a text -/

theorem after?_eq_some {front s rest : CodeUnits} : after? front s = some rest ↔ s = front ++ rest := by
  unfold after?
  constructor
  · intro h
    split_ifs at h with hfront
    obtain ⟨t, rfl⟩ := hfront
    rw [List.drop_left] at h
    rw [Option.some.inj h]
  · rintro rfl
    rw [if_pos (List.prefix_append _ _), List.drop_left]

/-- A placeholder stands at the start of the text. -/
theorem placeholder?_eq_some {n : ℕ} {s name : CodeUnits} (h : placeholder? n s = some name) :
    opening n ++ name ++ closing n <+: s := by
  unfold placeholder? at h
  obtain ⟨rest, hrest, hbody⟩ := Option.bind_eq_some_iff.mp h
  rw [after?_eq_some.mp hrest]
  split_ifs at hbody with hname
  obtain rfl := Option.some.inj hbody
  rw [List.append_assoc]
  refine List.prefix_append_right_inj _ |>.mpr ?_
  conv_rhs => rw [← List.takeWhile_append_dropWhile (p := isWord) (l := rest)]
  exact List.prefix_append_right_inj _ |>.mpr hname.2

theorem match?_eq_some {s : CodeUnits} {piece : Piece} (h : match? s = some piece) :
    piece.source <+: s ∧ 0 < piece.source.length := by
  unfold match? at h
  rcases Option.or_eq_some_iff.mp h with h | ⟨_, h⟩
  · obtain ⟨name, hname, rfl⟩ := Option.map_eq_some_iff.mp h
    exact ⟨placeholder?_eq_some hname, Nat.succ_pos _⟩
  · obtain ⟨name, hname, rfl⟩ := Option.map_eq_some_iff.mp h
    exact ⟨placeholder?_eq_some hname, Nat.succ_pos _⟩

/-- The scan loses nothing of the text. -/
theorem flatMap_source_scan (skip : ℕ) (s : CodeUnits) :
    (scan skip s).flatMap Piece.source = s.drop skip := by
  induction s generalizing skip with
  | nil =>
    rw [List.drop_nil]
    cases skip <;> rfl
  | cons u s ih =>
    cases skip with
    | succ skip => exact ih skip
    | zero =>
      unfold scan
      cases hm : match? (u :: s) with
      | none =>
        show ([u] ++ (scan 0 s).flatMap Piece.source) = _
        rw [ih]
        rfl
      | some piece =>
        obtain ⟨⟨rest, hrest⟩, hpos⟩ := match?_eq_some hm
        show piece.source ++ (scan _ s).flatMap Piece.source = u :: s
        rw [ih, ← hrest]
        refine congrArg _ ?_
        obtain ⟨v, source, hsource⟩ := List.exists_cons_of_length_pos hpos
        rw [hsource] at hrest ⊢
        obtain rfl := (List.cons.inj hrest).2
        exact List.drop_left

/-- **The pieces are the template.** -/
theorem flatMap_source_pieces (template : CodeUnits) :
    (pieces template).flatMap Piece.source = template := flatMap_source_scan 0 template

/-! ## Escaping -/

theorem escaped_escapeHtml (value : CodeUnits) : Escaped (escapeHtml value) := by
  refine ⟨value.map fun u => (HTML_ESCAPES u).getD [u], ?_, fun part hpart => ?_⟩
  · exact List.flatMap_def
  · obtain ⟨u, _, rfl⟩ := List.mem_map.mp hpart
    cases hu : HTML_ESCAPES u with
    | none => exact .inr ⟨u, hu, rfl⟩
    | some escape => exact .inl ⟨u, hu⟩

section Exactness

variable {vars : CodeUnits → Option CodeUnits} {maxLength : ℕ} {html : Bool}

theorem rendered_of_none {piece : Piece} (h : piece.value vars html = none) :
    piece.rendered vars html = piece.source := by
  unfold Piece.rendered
  rw [h, Option.getD_none]

theorem rendered_of_some {piece : Piece} {value : CodeUnits} (h : piece.value vars html = some value) :
    piece.rendered vars html = value := by
  unfold Piece.rendered
  rw [h, Option.getD_some]

/-- **In an HTML body nothing but a raw value brings in markup.** -/
theorem safe_of_html (piece : Piece) : piece.Safe vars true := by
  unfold Piece.Safe
  cases piece with
  | unit u => exact .inl rfl
  | raw name =>
    cases hv : vars name with
    | none => exact .inl (rendered_of_none hv)
    | some value =>
      have hvalue : (Piece.raw name).value vars true = some value := hv
      rw [rendered_of_some hvalue]
      exact .inr (.inl ⟨name, rfl, hv⟩)
  | escaped name =>
    have hvalue : (Piece.escaped name).value vars true = (vars name).map escapeHtml := rfl
    cases hv : vars name with
    | none =>
      rw [hv] at hvalue
      exact .inl (rendered_of_none hvalue)
    | some value =>
      rw [hv] at hvalue
      rw [rendered_of_some hvalue]
      exact .inr (.inr (escaped_escapeHtml value))

/-! ## The running length -/

theorem growth_cons (piece : Piece) (ps : List Piece) : growth vars html (piece :: ps) =
    piece.growth vars html + growth vars html ps := List.sum_cons

/-- The rendered text is as much longer as the pieces grow. -/
theorem length_flatMap_rendered (ps : List Piece) :
    ((ps.flatMap (Piece.rendered vars html)).length : ℤ) =
      (ps.flatMap Piece.source).length + growth vars html ps := by
  induction ps with
  | nil => rfl
  | cons piece ps ih =>
    rw [List.flatMap_cons, List.flatMap_cons, List.length_append, List.length_append, growth_cons,
      Nat.cast_add, Nat.cast_add, ih]
    unfold Piece.growth
    ring

theorem neverAbove_cons {length : ℤ} {piece : Piece} {all : List Piece} :
    NeverAbove vars maxLength html length (piece :: all) ↔
      ((piece.value vars html).isSome = true →
        length + piece.growth vars html ≤ maxLength) ∧
      NeverAbove vars maxLength html (length + piece.growth vars html) all := by
  constructor
  · intro h
    refine ⟨fun hsome => ?_, fun ps p hps hsome => ?_⟩
    · have hfirst := h [] piece (List.prefix_append [piece] all) hsome
      rwa [List.nil_append, growth_cons, growth, List.map_nil, List.sum_nil, add_zero] at hfirst
    · have hnext := h (piece :: ps) p (List.cons_prefix_cons.mpr ⟨rfl, hps⟩) hsome
      rwa [List.cons_append, growth_cons, ← add_assoc] at hnext
  · rintro ⟨hfirst, hrest⟩ ps p hps hsome
    cases ps with
    | nil =>
      obtain ⟨rfl, _⟩ := List.cons_prefix_cons.mp hps
      rw [List.nil_append, growth_cons, growth, List.map_nil, List.sum_nil, add_zero]
      exact hfirst hsome
    | cons q ps =>
      obtain ⟨rfl, htail⟩ := List.cons_prefix_cons.mp hps
      rw [List.cons_append, growth_cons, ← add_assoc]
      exact hrest ps p htail hsome

/-- What one turn does. -/
theorem replaceTurn_eq (s : Running) (piece : Piece) :
    replaceTurn vars maxLength html s piece =
      if (piece.value vars html).isSome = true →
          s.1 + piece.growth vars html ≤ maxLength then
        .ok (s.1 + piece.growth vars html, s.2 ++ piece.rendered vars html)
      else .error maxLength := by
  unfold replaceTurn Piece.growth Piece.rendered
  cases piece.value vars html with
  | none =>
    rw [if_pos (by rintro ⟨⟩), Option.getD_none, sub_self, add_zero]
  | some value =>
    rw [Option.getD_some]
    dsimp only
    by_cases h : maxLength < s.1 + (value.length - piece.source.length)
    · rw [if_pos h, if_neg fun himp => absurd (himp rfl) (not_le.mpr h)]
    · rw [if_neg h, if_pos fun _ => not_lt.mp h]

/-- **The replacement gives up exactly when the running length passes the limit.** -/
theorem foldlM_replaceTurn (ps : List Piece) (s : Running) :
    (NeverAbove vars maxLength html s.1 ps ∧
      ps.foldlM (replaceTurn vars maxLength html) s =
        .ok (s.1 + growth vars html ps, s.2 ++ ps.flatMap (Piece.rendered vars html))) ∨
    (¬ NeverAbove vars maxLength html s.1 ps ∧
      ps.foldlM (replaceTurn vars maxLength html) s = .error maxLength) := by
  induction ps generalizing s with
  | nil =>
    refine .inl ⟨fun ps p hps => ?_, ?_⟩
    · exact absurd (List.prefix_nil.mp hps) (by simp)
    · show Except.ok s = Except.ok (s.1 + 0, s.2 ++ [])
      rw [add_zero, List.append_nil]
  | cons piece ps ih =>
    rw [List.foldlM_cons, replaceTurn_eq, neverAbove_cons]
    by_cases hfirst : (piece.value vars html).isSome = true →
        s.1 + piece.growth vars html ≤ maxLength
    · rw [if_pos hfirst]
      rcases ih (s.1 + piece.growth vars html, s.2 ++ piece.rendered vars html) with
        ⟨hnever, hrest⟩ | ⟨habove, hrest⟩
      · refine .inl ⟨⟨hfirst, hnever⟩, hrest.trans ?_⟩
        rw [growth_cons, ← add_assoc, List.flatMap_cons, List.append_assoc]
      · exact .inr ⟨fun h => habove h.2, hrest⟩
    · rw [if_neg hfirst]
      exact .inr ⟨fun h => hfirst h.1, rfl⟩

/-- **Rendering is exact unless the template grows above the limit and shrinks again.**  It gives the
substituted text within the limit and the error above it, and in an HTML body keeps markup out, exactly
when all replacements together bring the template above the limit or none of them does on the way. -/
theorem renderTemplate_exact (template : CodeUnits) :
    (renderTemplate vars maxLength html template =
        (if (substituted vars html template).length ≤ maxLength then
          .ok (substituted vars html template) else .error maxLength) ∧
      (html = true → ∀ piece ∈ pieces template, piece.Safe vars html)) ↔
    (maxLength < template.length + growth vars html (pieces template) ∨
      NeverAbove vars maxLength html template.length (pieces template)) := by
  have hsafe : html = true → ∀ piece ∈ pieces template, piece.Safe vars html := by
    rintro rfl piece _
    exact safe_of_html piece
  rw [and_iff_left hsafe]
  have hlength : ((substituted vars html template).length : ℤ) =
      template.length + growth vars html (pieces template) := by
    unfold substituted
    rw [length_flatMap_rendered, flatMap_source_pieces]
  have hfits : (substituted vars html template).length ≤ maxLength ↔
      ¬ (maxLength : ℤ) < template.length + growth vars html (pieces template) := by
    rw [← hlength, not_lt, Nat.cast_le]
  unfold renderTemplate
  rcases @foldlM_replaceTurn vars maxLength html
    (pieces template) ((template.length : ℤ), []) with ⟨hnever, hfold⟩ | ⟨habove, hfold⟩
  · rw [hfold]
    refine iff_of_true ?_ (.inr hnever)
    show (if maxLength < (substituted vars html template).length then _ else
      Except.ok (substituted vars html template)) = _
    by_cases hle : (substituted vars html template).length ≤ maxLength
    · rw [if_neg (not_lt.mpr hle), if_pos hle]
    · rw [if_pos (not_le.mp hle), if_neg hle]
  · rw [hfold]
    dsimp only
    rw [or_iff_left habove]
    by_cases hle : (substituted vars html template).length ≤ maxLength
    · rw [if_pos hle]
      exact iff_of_false (by rintro ⟨⟩) (hfits.mp hle)
    · rw [if_neg hle]
      exact iff_of_true rfl (not_not.mp (mt hfits.mpr hle))

end Exactness

/-- A template of two placeholders, the first of which is replaced by a text as long. -/
def twoNames : CodeUnits := opening 2 ++ [0x61] ++ closing 2 ++ (opening 2 ++ [0x62] ++ closing 2)

/-- The first of two variables has five characters, the second none. -/
def shortValues (name : CodeUnits) : Option CodeUnits :=
  if name = [0x61] then some (List.replicate 5 0x78) else if name = [0x62] then some [] else none

/-- **A text within the limit is refused.** -/
theorem not_renderTemplate_exact :
    (substituted shortValues false twoNames).length = 5 ∧
      renderTemplate shortValues 8 false twoNames = .error 8 := by decide +kernel

end BunMail.Templates
