import BunMail.Emails.HtmlToText

/-!
# The pieces of an HTML text

What the text consists of, without the loop that reads it: units of text, entities, tags, and what is
hidden, which is comments, declarations, instructions, dropped elements with their content, and what is
never closed.  Every text has one list of pieces, and a turn of the loop reads one of them.
-/

namespace BunMail.Emails.HtmlToText

open CodeUnits

/-! ## The grammar -/

/-- The value of an attribute and what follows it. -/
inductive AttrValue : CodeUnits → CodeUnits → CodeUnits → Prop
  | quoted {quote : UInt16} {value next : CodeUnits} : quote = 0x22 ∨ quote = 0x27 → quote ∉ value →
      AttrValue (quote :: (value ++ quote :: next)) value next
  | bare {c : UInt16} {value next : CodeUnits} : c ≠ 0x22 → c ≠ 0x27 → (∀ u ∈ c :: value, isBareChar u) →
      (∀ u ∈ next.head?, isBareChar u = false) → AttrValue (c :: (value ++ next)) (c :: value) next
  | missing {next : CodeUnits} : AttrValue (0x3e :: next) [] (0x3e :: next)

/-- The attributes of a tag that have a value, by lower case names, and what follows the tag. -/
inductive Attributes : CodeUnits → List (CodeUnits × CodeUnits) → CodeUnits → Prop
  | close {next : CodeUnits} : Attributes (0x3e :: next) [] next
  | skip {c : UInt16} {s next : CodeUnits} {attrs : List (CodeUnits × CodeUnits)} :
      isSpace c ∨ c = 0x2f → Attributes s attrs next → Attributes (c :: s) attrs next
  | plain {name gap s next : CodeUnits} {attrs : List (CodeUnits × CodeUnits)} :
      name ≠ [] → (∀ u ∈ name, isAttrChar u) → (∀ u ∈ gap, isSpace u) →
      (∀ u ∈ s.head?, u ≠ 0x3d ∧ isSpace u = false ∧ (gap = [] → isAttrChar u = false)) →
      Attributes s attrs next → Attributes (name ++ (gap ++ s)) attrs next
  | valued {name gap gap' s value rest next : CodeUnits} {attrs : List (CodeUnits × CodeUnits)} :
      (∀ u ∈ name, isAttrChar u) → (∀ u ∈ gap, isSpace u) → (name = [] → gap = []) →
      (∀ u ∈ gap', isSpace u) → AttrValue s value rest → Attributes rest attrs next →
      Attributes (name ++ (gap ++ 0x3d :: (gap' ++ s))) ((toLowerCase name, value) :: attrs) next

/-- The first `href`. -/
def hrefOf (attrs : List (CodeUnits × CodeUnits)) : Option CodeUnits :=
  (attrs.find? (·.1 == of "href")).map Prod.snd

/-- A tag from its name on, and what follows it. -/
inductive TagAt (closing : Bool) : CodeUnits → ParsedTag → CodeUnits → Prop
  | mk {name s next : CodeUnits} {attrs : List (CodeUnits × CodeUnits)} : (∀ u ∈ name, isNameChar u) →
      (∀ u ∈ s.head?, isNameChar u = false) → Attributes s attrs next →
      TagAt closing (name ++ s) { name := toLowerCase name, closing, href := hrefOf attrs } next

/-- A tag, from behind its `<`: whether it is a closing one, and the text from its name on. -/
inductive TagOpen : CodeUnits → Bool → CodeUnits → Prop
  | opening {c : UInt16} {s : CodeUnits} : isLetter c → TagOpen (c :: s) false (c :: s)
  | closing {c : UInt16} {s : CodeUnits} : isLetter c → TagOpen (0x2f :: c :: s) true (c :: s)

/-- The text goes on with a closing tag of the name; `tail` is what follows the name. -/
inductive ClosingName (name : CodeUnits) : CodeUnits → CodeUnits → Prop
  | mk {found tail : CodeUnits} : toLowerCase found = name → (∀ u ∈ tail.head?, isNameChar u = false) →
      ClosingName name (0x3c :: 0x2f :: (found ++ tail)) tail

/-- The content of an element ends at its first closing tag, and the tag at its first `>`. -/
def ElementEnd (name t next : CodeUnits) : Prop :=
  ∃ content s tail gap, t = content ++ s ∧ ClosingName name s tail ∧
    (∀ a b tail', t = a ++ b → ClosingName name b tail' → content.length ≤ a.length) ∧
    FirstCut [0x3e] tail gap next

/-- An entity, from behind its `&`. -/
structure Entity (s text next : CodeUnits) (body : CodeUnits) : Prop where
  split : FirstCut [0x3b] s body next
  short : body.length ≤ MAX_ENTITY_LENGTH
  known : entityText body = some text

inductive Piece
  | unit (c : UInt16)
  | entity (text : CodeUnits)
  | tag (tag : ParsedTag)
  | hidden
  deriving DecidableEq

/-- The first piece of a text, and what follows it. -/
inductive Head : CodeUnits → Piece → CodeUnits → Prop
  | unit {c : UInt16} {s : CodeUnits} : c ≠ 0x26 → c ≠ 0x3c → Head (c :: s) (.unit c) s
  | entity {s text next body : CodeUnits} : Entity s text next body → Head (0x26 :: s) (.entity text) next
  | ampersand {s : CodeUnits} : (∀ text next body, ¬Entity s text next body) →
      Head (0x26 :: s) (.unit 0x26) s
  | less {s : CodeUnits} : (∀ c ∈ s.head?, c ≠ 0x21 ∧ c ≠ 0x3f) → (∀ closing named, ¬TagOpen s closing named) →
      Head (0x3c :: s) (.unit 0x3c) s
  | comment {s body next : CodeUnits} : FirstCut (of "-->") s body next →
      Head (0x3c :: 0x21 :: 0x2d :: 0x2d :: s) .hidden next
  | unclosedComment {s : CodeUnits} : ¬of "-->" <:+: s → Head (0x3c :: 0x21 :: 0x2d :: 0x2d :: s) .hidden []
  | declaration {c : UInt16} {s body next : CodeUnits} : c = 0x21 ∨ c = 0x3f → ¬of "!--" <+: c :: s →
      FirstCut [0x3e] s body next → Head (0x3c :: c :: s) .hidden next
  | unclosedDeclaration {c : UInt16} {s : CodeUnits} : c = 0x21 ∨ c = 0x3f → ¬of "!--" <+: c :: s →
      0x3e ∉ s → Head (0x3c :: c :: s) .hidden []
  | tag {s named next : CodeUnits} {closing : Bool} {tag : ParsedTag} : TagOpen s closing named →
      TagAt closing named tag next → (closing = false → tag.name ∉ DROPPED_ELEMENTS) →
      Head (0x3c :: s) (.tag tag) next
  | unclosedTag {s named : CodeUnits} {closing : Bool} : TagOpen s closing named →
      (∀ tag next, ¬TagAt closing named tag next) → Head (0x3c :: s) .hidden []
  | element {s named rest next : CodeUnits} {tag : ParsedTag} : TagOpen s false named →
      TagAt false named tag rest → tag.name ∈ DROPPED_ELEMENTS → ElementEnd tag.name rest next →
      Head (0x3c :: s) .hidden next
  | unclosedElement {s named rest : CodeUnits} {tag : ParsedTag} : TagOpen s false named →
      TagAt false named tag rest → tag.name ∈ DROPPED_ELEMENTS → (∀ next, ¬ElementEnd tag.name rest next) →
      Head (0x3c :: s) .hidden []

/-- A text and its pieces, each with the stretch of the text it is. -/
inductive Lexes : CodeUnits → List (CodeUnits × Piece) → Prop
  | nil : Lexes [] []
  | cons {source next : CodeUnits} {piece : Piece} {pieces : List (CodeUnits × Piece)} : source ≠ [] →
      Head (source ++ next) piece next → Lexes next pieces →
      Lexes (source ++ next) ((source, piece) :: pieces)

/-! ## Reading -/

variable {s next rest text body value : CodeUnits} {c : UInt16} {closing : Bool} {tag : ParsedTag}

theorem takeWhile_append_of_head {p : UInt16 → Bool} {a b : CodeUnits} (ha : ∀ u ∈ a, p u = true)
    (hb : ∀ u ∈ b.head?, p u = false) : (a ++ b).takeWhile p = a ∧ (a ++ b).dropWhile p = b := by
  rw [List.takeWhile_append_of_pos ha, List.dropWhile_append_of_pos ha]
  cases b with
  | nil => exact ⟨List.append_nil a, rfl⟩
  | cons u b =>
    have hu : ¬p u = true := by rw [hb u rfl]; exact Bool.false_ne_true
    rw [List.takeWhile_cons_of_neg hu, List.dropWhile_cons_of_neg hu]
    exact ⟨List.append_nil a, rfl⟩

theorem exists_takeWhile (p : UInt16 → Bool) (s : CodeUnits) :
    s = s.takeWhile p ++ s.dropWhile p ∧ (∀ u ∈ s.takeWhile p, p u = true) ∧
      ∀ u ∈ (s.dropWhile p).head?, p u = false :=
  ⟨List.takeWhile_append_dropWhile.symm, fun _ => List.mem_takeWhile_imp, fun u hu => by
    have hnot := List.head?_dropWhile_not p s
    rw [Option.mem_def.mp hu] at hnot
    exact Bool.eq_false_iff.mpr (by simpa using hnot)⟩

theorem decodeEntity_eq_some :
    decodeEntity s = some (text, next) ↔ ∃ body, Entity s text next body := by
  unfold decodeEntity
  rw [Option.bind_eq_some_iff]
  constructor
  · rintro ⟨⟨body, tail⟩, hcut, hread⟩
    obtain ⟨text', htext, heq⟩ := Option.map_eq_some_iff.mp hread
    cases heq
    obtain ⟨hsplit, hnot⟩ := firstCut_singleton.mp (cut?_eq_some.mp hcut)
    have hs : s = body ++ 0x3b :: s.drop (body.length + 1) := by
      have hall := (List.take_append_drop (MAX_ENTITY_LENGTH + 1) s).symm
      rw [hsplit] at hall
      rw [hall, List.append_assoc, List.append_cancel_left_eq, List.cons_append]
      simp [List.drop_append]
    have hlength := congrArg List.length hsplit
    rw [List.length_take, List.length_append, List.length_cons] at hlength
    exact ⟨body, firstCut_singleton.mpr ⟨hs, hnot⟩, by omega, htext⟩
  · rintro ⟨body, hcut, hshort, hknown⟩
    obtain ⟨rfl, hnot⟩ := firstCut_singleton.mp hcut
    refine ⟨(body, next.take (MAX_ENTITY_LENGTH - body.length)), cut?_eq_some.mpr
      (firstCut_singleton.mpr ⟨?_, hnot⟩), ?_⟩
    · rw [List.take_append, List.take_of_length_le (by omega),
        show MAX_ENTITY_LENGTH + 1 - body.length = (MAX_ENTITY_LENGTH - body.length) + 1 by omega,
        List.take_succ_cons]
    · dsimp only
      rw [hknown, List.drop_append]
      simp

theorem decodeEntity_eq_none : decodeEntity s = none ↔ ∀ text next body, ¬Entity s text next body := by
  constructor
  · intro h text next body hentity
    rw [decodeEntity_eq_some.mpr ⟨body, hentity⟩] at h
    cases h
  · intro h
    cases hread : decodeEntity s with
    | none => rfl
    | some read => exact absurd (decodeEntity_eq_some.mp hread).choose_spec (h _ _ _)

/-! ## Attributes -/

theorem isAttrChar_iff : isAttrChar c = true ↔ isSpace c = false ∧ c ≠ 0x3d ∧ c ≠ 0x3e ∧ c ≠ 0x2f := by
  unfold isAttrChar
  simp [and_assoc]

theorem isSpace_of_isBareChar (h : isBareChar c = true) : isSpace c = false := by
  unfold isBareChar at h
  rw [Bool.not_eq_true', Bool.or_eq_false_iff] at h
  exact h.1

theorem attrValue_of (hvalue : AttrValue s value rest) : attrValue s = some (value, rest) := by
  cases hvalue with
  | @quoted quote value next hquote hnot =>
    have hspace : ¬isSpace quote = true := by rcases hquote with rfl | rfl <;> decide
    unfold attrValue
    rw [List.dropWhile_cons_of_neg hspace]
    dsimp only
    rw [if_pos hquote]
    exact cut?_eq_some.mpr (firstCut_singleton.mpr ⟨rfl, hnot⟩)
  | @bare c value next hdouble hsingle hall hnext =>
    have hspace : ¬isSpace c = true := by
      rw [isSpace_of_isBareChar (hall c List.mem_cons_self)]
      exact Bool.false_ne_true
    obtain ⟨htake, hdrop⟩ := takeWhile_append_of_head hall hnext
    unfold attrValue
    rw [List.dropWhile_cons_of_neg hspace]
    dsimp only
    rw [if_neg (not_or.mpr ⟨hdouble, hsingle⟩), ← List.cons_append, htake, hdrop]
  | @missing next => rfl

theorem attrValue_gap (hgap : ∀ u ∈ value, isSpace u = true) (hs : ∀ u ∈ s.head?, isSpace u = false) :
    attrValue (value ++ s) = attrValue s := by
  have hdrop : s.dropWhile isSpace = s :=
    (takeWhile_append_of_head (a := []) (fun u hu => absurd hu List.not_mem_nil) hs).2
  unfold attrValue
  rw [(takeWhile_append_of_head hgap hs).2, hdrop]

theorem AttrValue.head (hvalue : AttrValue s value rest) : ∀ u ∈ s.head?, isSpace u = false := by
  rintro u hu
  cases hvalue with
  | quoted hquote _ =>
    obtain rfl := Option.some.inj hu
    rcases hquote with rfl | rfl <;> rfl
  | bare _ _ hall _ =>
    obtain rfl := Option.some.inj hu
    exact isSpace_of_isBareChar (hall _ List.mem_cons_self)
  | missing =>
    obtain rfl := Option.some.inj hu
    rfl

theorem AttrValue.length_le (hvalue : AttrValue s value rest) : rest.length ≤ s.length := by
  cases hvalue with
  | quoted _ _ => simp only [List.length_cons, List.length_append]; omega
  | bare _ _ _ _ => simp only [List.length_cons, List.length_append]; omega
  | missing => exact le_rfl

/-- Reading a value finds one, or comes to the end of the text. -/
theorem attrValue_spec (h : attrValue s = some (value, rest)) :
    ∃ gap s', s = gap ++ s' ∧ (∀ u ∈ gap, isSpace u = true) ∧ (AttrValue s' value rest ∨ rest = []) := by
  obtain ⟨hsplit, hgap, hhead⟩ := exists_takeWhile isSpace s
  refine ⟨_, _, hsplit, hgap, ?_⟩
  unfold attrValue at h
  revert h hhead
  cases s.dropWhile isSpace with
  | nil =>
    intro h _
    cases h
    exact .inr rfl
  | cons quote t =>
    intro h hhead
    replace h : (if quote = 0x22 ∨ quote = 0x27 then cut? [quote] t
      else some ((quote :: t).takeWhile isBareChar, (quote :: t).dropWhile isBareChar)) =
        some (value, rest) := h
    split_ifs at h with hquote
    · obtain ⟨rfl, hnot⟩ := firstCut_singleton.mp (cut?_eq_some.mp h)
      exact .inl (.quoted hquote hnot)
    · rw [Option.some.injEq, Prod.mk.injEq] at h
      obtain ⟨rfl, rfl⟩ := h
      obtain ⟨_, hall, hnext⟩ := exists_takeWhile isBareChar (quote :: t)
      by_cases hbare : isBareChar quote = true
      · rw [not_or] at hquote
        rw [List.takeWhile_cons_of_pos hbare] at hall ⊢
        rw [List.dropWhile_cons_of_pos hbare] at hnext ⊢
        left
        nth_rewrite 1 [← List.takeWhile_append_dropWhile (p := isBareChar) (l := t)]
        exact .bare hquote.1 hquote.2 hall hnext
      · rw [List.takeWhile_cons_of_neg hbare, List.dropWhile_cons_of_neg hbare]
        have hspace : isSpace quote = false := hhead quote rfl
        unfold isBareChar at hbare
        rw [hspace, Bool.false_or, Bool.not_eq_true', Bool.not_eq_false, beq_iff_eq] at hbare
        subst hbare
        exact .inl .missing

section Loop

variable {name gap : CodeUnits} {attrs : List (CodeUnits × CodeUnits)} {fuel : ℕ}
  {href found : Option CodeUnits}

/-- A turn of the loop that comes to the name of an attribute. -/
theorem parseAttributes_name (hname : ∀ u ∈ name, isAttrChar u = true) (hgap : ∀ u ∈ gap, isSpace u = true)
    (hs : ∀ u ∈ s.head?, isSpace u = false ∧ (gap = [] → isAttrChar u = false))
    (hbegins : name ≠ [] ∨ gap = [] ∧ s.head? = some 0x3d) :
    parseAttributes (fuel + 1) (name ++ (gap ++ s)) href =
      if s.head? = some 0x3d then
        (attrValue (s.drop 1)).bind fun read =>
          parseAttributes fuel read.2
            (if toLowerCase name = of "href" then href.or (some read.1) else href)
      else parseAttributes fuel s href := by
  have hrest : ∀ u ∈ (gap ++ s).head?, isAttrChar u = false := by
    intro u hu
    cases gap with
    | nil => exact (hs u hu).2 rfl
    | cons v gap =>
      obtain rfl := Option.some.inj hu
      have hspace := hgap v List.mem_cons_self
      rw [← Bool.not_eq_true, isAttrChar_iff, hspace]
      exact fun h => by cases h.1
  obtain ⟨htake, hdrop⟩ := takeWhile_append_of_head hname hrest
  obtain ⟨-, hdropGap⟩ := takeWhile_append_of_head hgap fun u hu => (hs u hu).1
  obtain ⟨c, t, hct, hclose, hspace, hslash⟩ : ∃ c t, name ++ (gap ++ s) = c :: t ∧ c ≠ 0x3e ∧
      isSpace c = false ∧ c ≠ 0x2f := by
    rcases hbegins with hne | ⟨rfl, hhead⟩
    · obtain ⟨c, name, rfl⟩ := List.exists_cons_of_ne_nil hne
      obtain ⟨hspace, -, hclose, hslash⟩ := isAttrChar_iff.mp (hname c List.mem_cons_self)
      exact ⟨c, _, rfl, hclose, hspace, hslash⟩
    · cases name with
      | cons c name =>
        obtain ⟨hspace, -, hclose, hslash⟩ := isAttrChar_iff.mp (hname c List.mem_cons_self)
        exact ⟨c, _, rfl, hclose, hspace, hslash⟩
      | nil =>
        obtain ⟨t, rfl⟩ := List.head?_eq_some_iff.mp hhead
        exact ⟨0x3d, t, rfl, by decide, rfl, by decide⟩
  rw [hct] at htake hdrop ⊢
  rw [parseAttributes, if_neg hclose, if_neg (by rw [hspace]; simpa using hslash), htake, hdrop, hdropGap]

theorem hrefOf_cons (name value : CodeUnits) (attrs : List (CodeUnits × CodeUnits)) :
    href.or (hrefOf ((name, value) :: attrs)) =
      (if name = of "href" then href.or (some value) else href).or (hrefOf attrs) := by
  unfold hrefOf
  rw [List.find?_cons]
  by_cases h : name = of "href"
  · rw [if_pos h, beq_iff_eq.mpr h, Option.or_assoc]
    rfl
  · rw [if_neg h, beq_eq_false_iff_ne.mpr h]

theorem parseAttributes_of (h : Attributes s attrs next) (hfuel : s.length ≤ fuel) :
    parseAttributes fuel s href = some (href.or (hrefOf attrs), next) := by
  induction h generalizing fuel href with
  | @close next =>
    obtain ⟨fuel, rfl⟩ := Nat.exists_eq_add_of_le' (Nat.one_le_of_lt hfuel)
    rw [parseAttributes, if_pos rfl]
    cases href <;> rfl
  | @skip c s next attrs hskip hrest ih =>
    obtain ⟨fuel, rfl⟩ := Nat.exists_eq_add_of_le' (Nat.one_le_of_lt hfuel)
    have hclose : c ≠ 0x3e := by
      rintro rfl
      rcases hskip with h | h <;> cases h
    rw [parseAttributes, if_neg hclose, if_pos (by simpa using hskip)]
    exact ih (Nat.le_of_succ_le_succ hfuel)
  | @plain name gap s next attrs hne hname hgap hs hrest ih =>
    have hlength := List.length_pos_iff.mpr hne
    simp only [List.length_append] at hfuel
    obtain ⟨fuel, rfl⟩ := Nat.exists_eq_add_of_le' (show 1 ≤ fuel by omega)
    have hequals : ¬s.head? = some 0x3d := fun h => (hs 0x3d h).1 rfl
    rw [parseAttributes_name hname hgap (fun u hu => (hs u hu).2) (.inl hne), if_neg hequals]
    exact ih (by omega)
  | @valued name gap gap' s value rest next attrs hname hgap hempty hgap' hvalue hrest ih =>
    simp only [List.length_append, List.length_cons] at hfuel
    obtain ⟨fuel, rfl⟩ := Nat.exists_eq_add_of_le' (show 1 ≤ fuel by omega)
    have hbegins : name ≠ [] ∨ gap = [] ∧ (0x3d :: (gap' ++ s)).head? = some 0x3d := by
      by_cases hne : name = []
      · exact .inr ⟨hempty hne, rfl⟩
      · exact .inl hne
    rw [parseAttributes_name hname hgap (fun u hu => ?_) hbegins, if_pos List.head?_cons, List.drop_one, List.tail_cons,
      attrValue_gap hgap' hvalue.head, attrValue_of hvalue, Option.bind_some, ih ?_, hrefOf_cons]
    · have hle := hvalue.length_le
      omega
    · obtain rfl := Option.some.inj hu
      exact ⟨rfl, fun _ => rfl⟩

/-- The name of an attribute and the white space after it. -/
theorem exists_name {t : CodeUnits} (hclose : c ≠ 0x3e) (hspace : isSpace c = false) (hslash : c ≠ 0x2f) :
    ∃ name gap s, c :: t = name ++ (gap ++ s) ∧ (∀ u ∈ name, isAttrChar u = true) ∧
      (∀ u ∈ gap, isSpace u = true) ∧
      (∀ u ∈ s.head?, isSpace u = false ∧ (gap = [] → isAttrChar u = false)) ∧
      (name ≠ [] ∨ gap = [] ∧ s.head? = some 0x3d) := by
  by_cases hequals : c = 0x3d
  · subst hequals
    refine ⟨[], [], 0x3d :: t, rfl, fun u hu => absurd hu List.not_mem_nil,
      fun u hu => absurd hu List.not_mem_nil, fun u hu => ?_, .inr ⟨rfl, rfl⟩⟩
    obtain rfl := Option.some.inj hu
    exact ⟨rfl, fun _ => rfl⟩
  · obtain ⟨hsplit, hname, hafter⟩ := exists_takeWhile isAttrChar (c :: t)
    obtain ⟨hsplitGap, hgap, hs⟩ := exists_takeWhile isSpace ((c :: t).dropWhile isAttrChar)
    refine ⟨_, _, _, hsplit.trans (congrArg _ hsplitGap), hname, hgap, fun u hu => ⟨hs u hu, ?_⟩, .inl ?_⟩
    · intro hnil
      rw [hnil, List.nil_append] at hsplitGap
      exact hafter u (hsplitGap ▸ hu)
    · rw [List.takeWhile_cons_of_pos (isAttrChar_iff.mpr ⟨hspace, hequals, hclose, hslash⟩)]
      exact List.cons_ne_nil _ _

theorem parseAttributes_spec (h : parseAttributes fuel s href = some (found, next)) :
    ∃ attrs, Attributes s attrs next ∧ found = href.or (hrefOf attrs) := by
  induction fuel generalizing s href with
  | zero => cases h
  | succ fuel ih =>
    cases s with
    | nil => cases h
    | cons c t =>
      by_cases hclose : c = 0x3e
      · rw [parseAttributes, if_pos hclose, Option.some.injEq, Prod.mk.injEq] at h
        obtain ⟨rfl, rfl⟩ := h
        subst hclose
        exact ⟨[], .close, by cases href <;> rfl⟩
      by_cases hskip : isSpace c || c == 0x2f
      · rw [parseAttributes, if_neg hclose, if_pos hskip] at h
        obtain ⟨attrs, hattrs, rfl⟩ := ih h
        exact ⟨attrs, .skip (by simpa using hskip) hattrs, rfl⟩
      rw [Bool.not_eq_true, Bool.or_eq_false_iff, beq_eq_false_iff_ne] at hskip
      obtain ⟨name, gap, s, hsplit, hname, hgap, hs, hbegins⟩ := exists_name (t := t) hclose hskip.1 hskip.2
      rw [hsplit, parseAttributes_name hname hgap hs hbegins] at h
      rw [hsplit]
      by_cases hequals : s.head? = some 0x3d
      · rw [if_pos hequals] at h
        obtain ⟨t, rfl⟩ := List.head?_eq_some_iff.mp hequals
        obtain ⟨⟨value, rest⟩, hread, hrest⟩ := Option.bind_eq_some_iff.mp h
        obtain ⟨gap', s', hgapped, hgap', hvalue⟩ := attrValue_spec hread
        obtain ⟨attrs, hattrs, rfl⟩ := ih hrest
        rw [List.drop_one, List.tail_cons] at hgapped
        rw [hgapped]
        refine ⟨(toLowerCase name, value) :: attrs, ?_, (hrefOf_cons _ _ _).symm⟩
        refine .valued hname hgap (fun hnil => ?_) hgap' (hvalue.resolve_right ?_) hattrs
        · exact (hbegins.resolve_left (not_not.mpr hnil)).1
        · rintro rfl
          cases fuel <;> cases hrest
      · rw [if_neg hequals] at h
        obtain ⟨attrs, hattrs, rfl⟩ := ih h
        refine ⟨attrs, .plain (hbegins.resolve_right fun h => hequals h.2) hname hgap (fun u hu => ?_) hattrs, rfl⟩
        refine ⟨?_, hs u hu⟩
        rintro rfl
        exact hequals hu

end Loop

/-! ## Tags -/

theorem parseTag_eq_some : parseTag s closing = some (tag, next) ↔ TagAt closing s tag next := by
  unfold parseTag
  rw [Option.map_eq_some_iff]
  constructor
  · rintro ⟨⟨href, next⟩, hread, heq⟩
    cases heq
    obtain ⟨attrs, hattrs, hhref⟩ := parseAttributes_spec hread
    obtain ⟨hsplit, hname, hafter⟩ := exists_takeWhile isNameChar s
    rw [hhref]
    nth_rewrite 1 [hsplit]
    exact .mk hname hafter hattrs
  · rintro ⟨hname, hafter, hattrs⟩
    obtain ⟨htake, hdrop⟩ := takeWhile_append_of_head hname hafter
    rw [htake, hdrop]
    exact ⟨_, parseAttributes_of hattrs (Nat.le_succ _), rfl⟩

theorem parseTag_eq_none : parseTag s closing = none ↔ ∀ tag next, ¬TagAt closing s tag next := by
  rw [Option.eq_none_iff_forall_ne_some]
  exact ⟨fun h tag next ht => h (tag, next) (parseTag_eq_some.mpr ht),
    fun h read hread => h read.1 read.2 (parseTag_eq_some.mp hread)⟩

/-! ## Closing tags -/

variable {name tail : CodeUnits}

theorem length_toLowerCase (s : CodeUnits) : (toLowerCase s).length = s.length := List.length_map _

theorem closingName_iff : ClosingName name (c :: s) tail ↔
    (of "</" <+: c :: s ∧ closesHere name (s.drop 1) = true) ∧ tail = (s.drop 1).drop name.length := by
  unfold closesHere
  rw [Bool.and_eq_true, beq_iff_eq, Bool.not_eq_true', Option.any_eq_false]
  constructor
  · intro h
    cases h with
    | @mk found tail hfound hafter =>
      have hlength : name.length = found.length := by rw [← hfound, length_toLowerCase]
      rw [List.drop_one, List.tail_cons, hlength, List.take_left, List.drop_left]
      exact ⟨⟨⟨found ++ tail, rfl⟩, hfound, hafter⟩, rfl⟩
  · rintro ⟨⟨⟨rest, hrest⟩, hname, hafter⟩, rfl⟩
    rw [← hrest]
    have hs : s = 0x2f :: rest := (List.cons.inj hrest).2.symm
    subst hs
    show ClosingName name (0x3c :: 0x2f :: rest) _
    rw [List.drop_one, List.tail_cons] at hname hafter ⊢
    nth_rewrite 1 [← List.take_append_drop name.length rest]
    exact .mk hname hafter

theorem findClosingTag_eq_some : findClosingTag name s = some next ↔ ElementEnd name s next := by
  induction s with
  | nil =>
    refine iff_of_false nofun ?_
    rintro ⟨content, s, tail, gap, hsplit, hclosing, -⟩
    obtain ⟨-, rfl⟩ := List.append_eq_nil_iff.mp hsplit.symm
    cases hclosing
  | cons c s ih =>
    rw [findClosingTag]
    split_ifs with hhere
    · have hclosing := closingName_iff.mpr ⟨hhere, rfl⟩
      rw [Option.map_eq_some_iff]
      constructor
      · rintro ⟨⟨gap, next⟩, hcut, rfl⟩
        exact ⟨[], _, _, gap, rfl, hclosing, fun _ _ _ _ _ => Nat.zero_le _, cut?_eq_some.mp hcut⟩
      · rintro ⟨content, t, tail, gap, hsplit, hfound, hfirst, hcut⟩
        have hnil : content = [] :=
          List.eq_nil_of_length_eq_zero (Nat.le_zero.mp (hfirst [] _ _ rfl hclosing))
        rw [hnil, List.nil_append] at hsplit
        subst hsplit
        obtain ⟨-, rfl⟩ := closingName_iff.mp hfound
        exact ⟨(gap, next), cut?_eq_some.mpr hcut, rfl⟩
    · have hnot : ∀ tail, ¬ClosingName name (c :: s) tail := fun tail h =>
        hhere (closingName_iff.mp h).1
      rw [ih]
      constructor
      · rintro ⟨content, t, tail, gap, hsplit, hfound, hfirst, hcut⟩
        refine ⟨c :: content, t, tail, gap, congrArg (c :: ·) hsplit, hfound, fun a b tail' heq hb => ?_, hcut⟩
        cases a with
        | nil => exact absurd (heq ▸ hb) (hnot tail')
        | cons u a => exact Nat.succ_le_succ (hfirst a b tail' (List.cons.inj heq).2 hb)
      · rintro ⟨content, t, tail, gap, hsplit, hfound, hfirst, hcut⟩
        cases content with
        | nil => exact absurd (hsplit ▸ hfound) (hnot tail)
        | cons u content =>
          refine ⟨content, t, tail, gap, (List.cons.inj hsplit).2, hfound, fun a b tail' heq hb => ?_, hcut⟩
          exact Nat.le_of_succ_le_succ (hfirst (c :: a) b tail' (congrArg (c :: ·) heq) hb)

theorem findClosingTag_eq_none : findClosingTag name s = none ↔ ∀ next, ¬ElementEnd name s next := by
  rw [Option.eq_none_iff_forall_ne_some]
  exact forall_congr' fun next => not_congr findClosingTag_eq_some

/-! ## The first piece -/

/-- The first piece as the loop reads it, and what follows it. -/
def readPiece (c : UInt16) (s : CodeUnits) : Piece × CodeUnits :=
  if c = 0x26 then (decodeEntity s).elim (.unit c, s) fun read => (.entity read.1, read.2)
  else if c ≠ 0x3c then (.unit c, s)
  else if s.head? = some 0x21 ∨ s.head? = some 0x3f then
    let close := if of "!--" <+: s then cut? (of "-->") (s.drop 3) else cut? [0x3e] (s.drop 1)
    (.hidden, close.elim [] Prod.snd)
  else
    let closing := s.head? == some 0x2f
    let named := if closing then s.drop 1 else s
    if !named.head?.any isLetter then (.unit c, s)
    else
      (parseTag named closing).elim (.hidden, []) fun read =>
        if !read.1.closing ∧ read.1.name ∈ DROPPED_ELEMENTS then
          (.hidden, (findClosingTag read.1.name read.2).getD [])
        else (.tag read.1, read.2)

theorem TagAt.closing_eq (h : TagAt closing s tag next) : tag.closing = closing := by
  cases h
  rfl

section Head

variable {named : CodeUnits} {piece : Piece}

/-- A tag is neither a declaration nor an instruction. -/
theorem TagOpen.head (h : TagOpen s closing named) : ¬(s.head? = some 0x21 ∨ s.head? = some 0x3f) := by
  cases h with
  | @opening c s hletter => rintro (h | h) <;> rw [Option.some.inj h] at hletter <;> cases hletter
  | closing _ => simp

theorem tagOpen_iff : TagOpen s closing named ↔
    (closing = (s.head? == some 0x2f) ∧ named = if s.head? == some 0x2f then s.drop 1 else s) ∧
      named.head?.any isLetter = true := by
  constructor
  · intro h
    cases h with
    | @opening c s hletter =>
      have hslash : ((c :: s).head? == some 0x2f) = false := by
        rw [beq_eq_false_iff_ne]
        intro h
        rw [Option.some.inj h] at hletter
        cases hletter
      rw [hslash]
      exact ⟨⟨rfl, rfl⟩, hletter⟩
    | closing hletter => exact ⟨⟨rfl, rfl⟩, hletter⟩
  · rintro ⟨⟨rfl, rfl⟩, hletter⟩
    cases hslash : s.head? == some 0x2f with
    | true =>
      rw [hslash, if_pos rfl] at hletter
      obtain ⟨t, rfl⟩ := List.head?_eq_some_iff.mp (beq_iff_eq.mp hslash)
      cases t with
      | nil => cases hletter
      | cons c t => exact .closing hletter
    | false =>
      rw [hslash, if_neg Bool.false_ne_true] at hletter
      cases s with
      | nil => cases hletter
      | cons c t => exact .opening hletter

/-- What a tag reads, from behind its `<`. -/
theorem readPiece_tag (hopen : TagOpen s closing named) : readPiece 0x3c s =
    (parseTag named closing).elim (.hidden, []) fun read =>
      if !read.1.closing ∧ read.1.name ∈ DROPPED_ELEMENTS then
        (.hidden, (findClosingTag read.1.name read.2).getD [])
      else (.tag read.1, read.2) := by
  obtain ⟨⟨rfl, rfl⟩, hletter⟩ := tagOpen_iff.mp hopen
  unfold readPiece
  rw [if_neg (by decide), if_neg (not_not.mpr rfl), if_neg hopen.head]
  refine if_neg ?_
  rw [hletter]
  exact Bool.false_ne_true

/-- What a comment, a declaration or an instruction reads, from behind its `<`. -/
theorem readPiece_markup (hc : c = 0x21 ∨ c = 0x3f) : readPiece 0x3c (c :: s) =
    (.hidden, (if of "!--" <+: c :: s then cut? (of "-->") (s.drop 2) else cut? [0x3e] s).elim [] Prod.snd) := by
  have hhead : (c :: s).head? = some 0x21 ∨ (c :: s).head? = some 0x3f := by
    rcases hc with rfl | rfl
    · exact .inl rfl
    · exact .inr rfl
  unfold readPiece
  rw [if_neg (by decide), if_neg (not_not.mpr rfl), if_pos hhead]
  rfl

theorem readPiece_comment : readPiece 0x3c (0x21 :: 0x2d :: 0x2d :: s) =
    (.hidden, (cut? (of "-->") s).elim [] Prod.snd) := by
  rw [readPiece_markup (.inl rfl), if_pos ⟨s, rfl⟩]
  rfl

theorem readPiece_less (hmarkup : ∀ c ∈ s.head?, c ≠ 0x21 ∧ c ≠ 0x3f)
    (htag : ∀ closing named, ¬TagOpen s closing named) : readPiece 0x3c s = (.unit 0x3c, s) := by
  have hhead : ¬(s.head? = some 0x21 ∨ s.head? = some 0x3f) := by
    rintro (h | h)
    · exact (hmarkup _ h).1 rfl
    · exact (hmarkup _ h).2 rfl
  unfold readPiece
  rw [if_neg (by decide), if_neg (not_not.mpr rfl), if_neg hhead]
  refine if_pos ?_
  rw [Bool.not_eq_true', ← Bool.not_eq_true]
  exact fun hletter => htag _ _ (tagOpen_iff.mpr ⟨⟨rfl, rfl⟩, hletter⟩)

theorem cut?_nil_of_notMem {u : UInt16} (h : u ∉ s) : cut? [u] s = none :=
  cut?_eq_none.mpr fun hwithin => h (hwithin.subset List.mem_cons_self)

theorem readPiece_of_head (h : Head (c :: s) piece next) : readPiece c s = (piece, next) := by
  cases h with
  | unit hamp hless =>
    unfold readPiece
    rw [if_neg hamp, if_pos hless]
  | entity hentity =>
    unfold readPiece
    rw [if_pos rfl, decodeEntity_eq_some.mpr ⟨_, hentity⟩]
    rfl
  | ampersand hnone =>
    unfold readPiece
    rw [if_pos rfl, decodeEntity_eq_none.mpr hnone]
    rfl
  | less hmarkup htag => exact readPiece_less hmarkup htag
  | comment hcut =>
    rw [readPiece_comment, cut?_eq_some.mpr hcut]
    rfl
  | unclosedComment hnone =>
    rw [readPiece_comment, cut?_eq_none.mpr hnone]
    rfl
  | declaration hc hnot hcut =>
    rw [readPiece_markup hc, if_neg hnot, cut?_eq_some.mpr hcut]
    rfl
  | unclosedDeclaration hc hnot hnone =>
    rw [readPiece_markup hc, if_neg hnot, cut?_nil_of_notMem hnone]
    rfl
  | tag hopen htag hkept =>
    rw [readPiece_tag hopen, parseTag_eq_some.mpr htag]
    dsimp only [Option.elim_some]
    rw [if_neg]
    rw [htag.closing_eq]
    rintro ⟨hclosing, hdropped⟩
    exact hkept (by simpa using hclosing) hdropped
  | unclosedTag hopen hnone =>
    rw [readPiece_tag hopen, parseTag_eq_none.mpr hnone]
    rfl
  | element hopen htag hdropped hend =>
    rw [readPiece_tag hopen, parseTag_eq_some.mpr htag]
    dsimp only [Option.elim_some]
    rw [if_pos ⟨by rw [htag.closing_eq]; rfl, hdropped⟩, findClosingTag_eq_some.mpr hend]
    rfl
  | unclosedElement hopen htag hdropped hnone =>
    rw [readPiece_tag hopen, parseTag_eq_some.mpr htag]
    dsimp only [Option.elim_some]
    rw [if_pos ⟨by rw [htag.closing_eq]; rfl, hdropped⟩, findClosingTag_eq_none.mpr hnone]
    rfl

theorem exists_head_tag (hopen : TagOpen s closing named) : ∃ piece next, Head (0x3c :: s) piece next := by
  by_cases htag : ∃ tag next, TagAt closing named tag next
  · obtain ⟨tag, rest, htag⟩ := htag
    by_cases hdropped : closing = false ∧ tag.name ∈ DROPPED_ELEMENTS
    · obtain ⟨rfl, hdropped⟩ := hdropped
      by_cases hend : ∃ next, ElementEnd tag.name rest next
      · obtain ⟨next, hend⟩ := hend
        exact ⟨_, _, .element hopen htag hdropped hend⟩
      · exact ⟨_, _, .unclosedElement hopen htag hdropped (not_exists.mp hend)⟩
    · exact ⟨_, _, .tag hopen htag fun hclosing hmem => hdropped ⟨hclosing, hmem⟩⟩
  · exact ⟨_, _, .unclosedTag hopen fun tag next h => htag ⟨tag, next, h⟩⟩

theorem exists_head_markup (hc : c = 0x21 ∨ c = 0x3f) : ∃ piece next, Head (0x3c :: c :: s) piece next := by
  by_cases hcomment : of "!--" <+: c :: s
  · obtain ⟨t, ht⟩ := hcomment
    rw [← ht]
    by_cases hclose : of "-->" <:+: t
    · obtain ⟨body, next, hcut⟩ := exists_firstCut hclose
      exact ⟨_, _, .comment hcut⟩
    · exact ⟨_, _, .unclosedComment hclose⟩
  · by_cases hclose : (0x3e : UInt16) ∈ s
    · obtain ⟨front, back, hs⟩ := List.append_of_mem hclose
      have hwithin : [0x3e] <:+: s := ⟨front, back, by rw [hs]; simp⟩
      obtain ⟨body, next, hcut⟩ := exists_firstCut hwithin
      exact ⟨_, _, .declaration hc hcomment hcut⟩
    · exact ⟨_, _, .unclosedDeclaration hc hcomment hclose⟩

/-- A text that is not empty has a first piece. -/
theorem exists_head (c : UInt16) (s : CodeUnits) : ∃ piece next, Head (c :: s) piece next := by
  by_cases hamp : c = 0x26
  · subst hamp
    by_cases hentity : ∃ text next body, Entity s text next body
    · obtain ⟨text, next, body, hentity⟩ := hentity
      exact ⟨_, _, .entity hentity⟩
    · exact ⟨_, _, .ampersand fun text next body h => hentity ⟨text, next, body, h⟩⟩
  by_cases hless : c = 0x3c
  · subst hless
    by_cases htag : ∃ closing named, TagOpen s closing named
    · obtain ⟨closing, named, hopen⟩ := htag
      exact exists_head_tag hopen
    by_cases hmarkup : ∀ u ∈ s.head?, u ≠ 0x21 ∧ u ≠ 0x3f
    · exact ⟨_, _, .less hmarkup fun closing named h => htag ⟨closing, named, h⟩⟩
    · push Not at hmarkup
      obtain ⟨u, hu, hnot⟩ := hmarkup
      obtain ⟨t, rfl⟩ := List.head?_eq_some_iff.mp hu
      exact exists_head_markup (or_iff_not_imp_left.mpr hnot)
  · exact ⟨_, _, .unit hamp hless⟩

theorem head_iff : Head (c :: s) piece next ↔ readPiece c s = (piece, next) := by
  refine ⟨readPiece_of_head, fun h => ?_⟩
  obtain ⟨piece', next', hhead⟩ := exists_head c s
  have hread := readPiece_of_head hhead
  rw [h, Prod.mk.injEq] at hread
  rw [hread.1, hread.2]
  exact hhead

end Head

/-! ## The pieces -/

section Suffix

variable {attrs : List (CodeUnits × CodeUnits)} {named name tail : CodeUnits} {piece : Piece}

theorem AttrValue.suffix (h : AttrValue s value next) : next <:+ s := by
  cases h with
  | @quoted quote value next _ _ => exact ⟨quote :: (value ++ [quote]), by simp⟩
  | @bare c value next _ _ _ _ => exact ⟨c :: value, rfl⟩
  | missing => exact List.suffix_rfl

theorem Attributes.suffix (h : Attributes s attrs next) : next <:+ s := by
  induction h with
  | close => exact List.suffix_cons _ _
  | skip _ _ ih => exact ih.trans (List.suffix_cons _ _)
  | @plain name gap s next attrs _ _ _ _ _ ih =>
    exact ih.trans ((List.suffix_append gap s).trans (List.suffix_append name _))
  | @valued name gap gap' s value rest next attrs _ _ _ _ hvalue _ ih =>
    refine ih.trans (hvalue.suffix.trans ⟨name ++ (gap ++ 0x3d :: gap'), ?_⟩)
    simp

theorem TagAt.suffix (h : TagAt closing s tag next) : next <:+ s := by
  cases h with
  | @mk name s next attrs _ _ hattrs => exact hattrs.suffix.trans (List.suffix_append name s)

theorem TagOpen.suffix (h : TagOpen s closing named) : named <:+ s := by
  cases h with
  | opening _ => exact List.suffix_rfl
  | closing _ => exact List.suffix_cons _ _

theorem ClosingName.suffix (h : ClosingName name s tail) : tail <:+ s := by
  cases h with
  | @mk found tail _ _ => exact ⟨0x3c :: 0x2f :: found, rfl⟩

theorem ElementEnd.suffix (h : ElementEnd name s next) : next <:+ s := by
  obtain ⟨content, t, tail, gap, rfl, hclosing, -, hcut⟩ := h
  exact hcut.suffix.trans (hclosing.suffix.trans (List.suffix_append content t))

/-- What follows the first piece is shorter than the text. -/
theorem Head.suffix (h : Head (c :: s) piece next) : next <:+ s := by
  cases h with
  | unit _ _ => exact List.suffix_rfl
  | entity hentity => exact hentity.split.suffix
  | ampersand _ => exact List.suffix_rfl
  | less _ _ => exact List.suffix_rfl
  | comment hcut => exact hcut.suffix.trans ⟨[0x21, 0x2d, 0x2d], rfl⟩
  | unclosedComment _ => exact List.nil_suffix
  | declaration _ _ hcut => exact hcut.suffix.trans (List.suffix_cons _ _)
  | unclosedDeclaration _ _ _ => exact List.nil_suffix
  | tag hopen htag _ => exact htag.suffix.trans hopen.suffix
  | unclosedTag _ _ => exact List.nil_suffix
  | element hopen htag _ hend => exact hend.suffix.trans (htag.suffix.trans hopen.suffix)
  | unclosedElement _ _ _ _ => exact List.nil_suffix

end Suffix

/-- Every text has its pieces. -/
theorem exists_lexes (s : CodeUnits) : ∃ pieces, Lexes s pieces := by
  induction hlength : s.length using Nat.strong_induction_on generalizing s with
  | _ n ih =>
    cases s with
    | nil => exact ⟨[], .nil⟩
    | cons c s =>
      obtain ⟨piece, next, hhead⟩ := exists_head c s
      obtain ⟨source, hsource⟩ := hhead.suffix
      have hlt : next.length < n := by
        rw [← hlength, ← hsource, List.length_cons, List.length_append]
        omega
      obtain ⟨pieces, hrest⟩ := ih next.length hlt next rfl
      have hsplit : c :: s = (c :: source) ++ next := by rw [List.cons_append, hsource]
      rw [hsplit] at hhead ⊢
      exact ⟨_, .cons (List.cons_ne_nil c source) hhead hrest⟩

theorem Lexes.cases_cons {pieces : List (CodeUnits × Piece)} (h : Lexes (c :: s) pieces) :
    ∃ source piece next rest, c :: s = source ++ next ∧ pieces = (source, piece) :: rest ∧
      Head (c :: s) piece next ∧ Lexes next rest := by
  generalize ht : c :: s = t at h
  cases h with
  | nil => cases ht
  | @cons source next piece pieces _ hhead hrest =>
    exact ⟨source, piece, next, pieces, rfl, rfl, hhead, hrest⟩

/-- A text has one list of pieces. -/
theorem Lexes.unique {pieces pieces' : List (CodeUnits × Piece)} (h : Lexes s pieces) (h' : Lexes s pieces') :
    pieces = pieces' := by
  induction h generalizing pieces' with
  | nil =>
    generalize ht : ([] : CodeUnits) = t at h'
    cases h' with
    | nil => rfl
    | cons hne _ _ => exact absurd (List.append_eq_nil_iff.mp ht.symm).1 hne
  | @cons source next piece pieces hne hhead hrest ih =>
    obtain ⟨c, source, rfl⟩ := List.exists_cons_of_ne_nil hne
    obtain ⟨source', piece', next', rest', hsplit, rfl, hhead', hrest'⟩ := h'.cases_cons
    have hread := (readPiece_of_head hhead).symm.trans (readPiece_of_head hhead')
    obtain ⟨rfl, rfl⟩ := Prod.mk.inj hread
    have hsource : (c :: source) ++ next = source' ++ next := hsplit
    rw [List.append_cancel_right hsource, ih hrest']

/-- The stretches of the pieces are the text. -/
theorem Lexes.flatten {pieces : List (CodeUnits × Piece)} (h : Lexes s pieces) :
    (pieces.map Prod.fst).flatten = s := by
  induction h with
  | nil => rfl
  | cons _ _ _ ih => rw [List.map_cons, List.flatten_cons, ih]

theorem Lexes.forward {pieces : List (CodeUnits × Piece)} (h : Lexes s pieces) :
    ∀ piece ∈ pieces, piece.1 ≠ [] := by
  induction h with
  | nil => exact fun _ hp => absurd hp List.not_mem_nil
  | cons hne _ _ ih =>
    intro piece hp
    rcases List.mem_cons.mp hp with rfl | hp
    · exact hne
    · exact ih piece hp

/-! ## The loop reads the pieces -/

/-- What a turn of the loop does with its piece. -/
def State.read (st : State) : Piece → State
  | .unit c =>
    if c = 0x26 then { st.flush with sink := st.flush.sink.text [c] } else { st with run := st.run ++ [c] }
  | .entity text => { st.flush with sink := st.flush.sink.text text }
  | .tag tag => st.flush.onTag tag
  | .hidden => st.flush

/-- The pieces, up to the one that fills the collector. -/
def State.readAll (st : State) (pieces : List Piece) : State :=
  pieces.foldl (fun st piece => if st.sink.full then st else st.read piece) st

theorem turn_eq (st : State) (c : UInt16) (s : CodeUnits) :
    turn st c s = (st.read (readPiece c s).1, (readPiece c s).2) := by
  unfold turn readPiece
  by_cases hamp : c = 0x26
  · rw [if_pos hamp, if_pos hamp]
    cases decodeEntity s with
    | some read => rfl
    | none => simp [State.read, hamp]
  rw [if_neg hamp, if_neg hamp]
  by_cases hless : c ≠ 0x3c
  · rw [if_pos hless, if_pos hless]
    simp [State.read, hamp]
  rw [if_neg hless, if_neg hless]
  by_cases hmarkup : s.head? = some 0x21 ∨ s.head? = some 0x3f
  · rw [if_pos hmarkup, if_pos hmarkup]
    rfl
  rw [if_neg hmarkup, if_neg hmarkup]
  dsimp only
  generalize (if (s.head? == some 0x2f) = true then s.drop 1 else s) = named
  by_cases hletter : !named.head?.any isLetter
  · rw [if_pos hletter, if_pos hletter]
    simp [State.read, hamp]
  rw [if_neg hletter, if_neg hletter]
  unfold tagTurn
  cases parseTag named (s.head? == some 0x2f) with
  | none => rfl
  | some read =>
    dsimp only [Option.elim_some]
    split_ifs <;> rfl

theorem walk_drop (skip : ℕ) (s : CodeUnits) (st : State) : walk skip s st = walk 0 (s.drop skip) st := by
  induction skip generalizing s with
  | zero => rw [List.drop_zero]
  | succ skip ih =>
    cases s with
    | nil => rfl
    | cons c s => exact ih s

theorem State.readAll_full {st : State} (h : st.sink.full = true) (pieces : List Piece) :
    st.readAll pieces = st := by
  unfold State.readAll
  induction pieces with
  | nil => rfl
  | cons piece pieces ih => rw [List.foldl_cons, if_pos h, ih]

/-- **The loop reads the text piece by piece, until it stops.** -/
theorem walk_lexes {pieces : List (CodeUnits × Piece)} (h : Lexes s pieces) (st : State) :
    walk 0 s st = st.readAll (pieces.map Prod.snd) := by
  induction h generalizing st with
  | nil => rfl
  | @cons source next piece pieces hne hhead hrest ih =>
    obtain ⟨c, source, rfl⟩ := List.exists_cons_of_ne_nil hne
    have hturn := turn_eq st c (source ++ next)
    have hread : readPiece c (source ++ next) = (piece, next) := readPiece_of_head hhead
    rw [hread] at hturn
    rw [List.cons_append, walk, hturn]
    by_cases hfull : st.sink.full = true
    · rw [if_pos hfull, State.readAll_full hfull]
    · have hskip : (source ++ next).length - next.length = source.length := by
        rw [List.length_append, Nat.add_sub_cancel]
      rw [if_neg hfull, hskip, walk_drop, List.drop_left, ih, List.map_cons]
      unfold State.readAll
      rw [List.foldl_cons, if_neg hfull]

end BunMail.Emails.HtmlToText
