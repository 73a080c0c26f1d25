import BunMail.Lib.Text

/-!
# Lowercasing

`toLowerCase` maps letters, each to one or more letters, and leaves white space and every ASCII
character that is no letter where it is.  What follows from that alone: the result splits at such a
character into the lowercased parts, and it starts, ends and counts like the text.  `IsLowerCase` adds
that a lowercased text stays as it is, that the two sides of an `@` are lowercased on their own, and
that the text never gets shorter.
-/

namespace Text

/-- White space, and ASCII but for letters: characters that lowercasing leaves and never makes. -/
def isFixed (c : Char) : Bool := isSpace c || (decide (c.toNat < 128) && !c.isAlpha)

/-- The second text is the first with its letters mapped. -/
inductive Lowers : Text → Text → Prop
  | nil : Lowers [] []
  | fixed {c : Char} {s t : Text} : isFixed c = true → Lowers s t → Lowers (c :: s) (c :: t)
  | ascii {c : Char} {s t : Text} : c.isAlpha = true → Lowers s t →
      Lowers (c :: s) (c.toLower :: t)
  | letter {c : Char} {piece s t : Text} : 128 ≤ c.toNat → isFixed c = false → piece ≠ [] →
      (∀ d ∈ piece, isFixed d = false) → Lowers s t → Lowers (c :: s) (piece ++ t)

/-- What is relied on of the script language's `toLowerCase`. -/
structure IsLowerCase (toLowerCase : Text → Text) : Prop where
  lowers : ∀ s, Lowers s (toLowerCase s)
  idempotent : ∀ s, toLowerCase (toLowerCase s) = toLowerCase s
  /-- An `@` is no letter and ends every context a letter is mapped in. -/
  around_at : ∀ s t, toLowerCase (s ++ '@' :: t) = toLowerCase s ++ '@' :: toLowerCase t
  length : ∀ s, utf16Length s ≤ utf16Length (toLowerCase s)

/-! ## Characters -/

theorem isAlpha_toNat {c : Char} (h : c.isAlpha = true) :
    65 ≤ c.toNat ∧ c.toNat ≤ 90 ∨ 97 ≤ c.toNat ∧ c.toNat ≤ 122 := by
  unfold Char.isAlpha Char.isUpper Char.isLower at h
  simp only [Bool.or_eq_true, Bool.and_eq_true, decide_eq_true_eq, UInt32.le_iff_toNat_le] at h
  exact h

theorem isAlpha_iff {c : Char} : c.isAlpha = true ↔
    (65 ≤ c.toNat ∧ c.toNat ≤ 90 ∨ 97 ≤ c.toNat ∧ c.toNat ≤ 122) := by
  refine ⟨isAlpha_toNat, fun h => ?_⟩
  unfold Char.isAlpha Char.isUpper Char.isLower
  simp only [Bool.or_eq_true, Bool.and_eq_true, decide_eq_true_eq, UInt32.le_iff_toNat_le]
  exact h

theorem isSpace_ascii {c : Char} (h : c.toNat < 128) (hs : isSpace c = true) : c.isAlpha = false := by
  rw [← Bool.not_eq_true, isAlpha_iff]
  unfold isSpace at hs
  simp only [Bool.or_eq_true, Bool.and_eq_true, decide_eq_true_eq, beq_iff_eq] at hs
  omega

theorem isFixed_of_isAlpha {c : Char} (h : c.isAlpha = true) : isFixed c = false := by
  have hn := isAlpha_toNat h
  unfold isFixed
  rw [h, Bool.not_true, Bool.and_false, Bool.or_false, ← Bool.not_eq_true]
  intro hs
  have := isSpace_ascii (by omega) hs
  rw [h] at this
  cases this

theorem toLower_of_isFixed {c : Char} (h : isFixed c = true) : c.toLower = c := by
  refine Char.toLower_eq_of_not_isUpper fun hu => ?_
  have halpha : c.isAlpha = true := by
    unfold Char.isAlpha
    rw [hu, Bool.true_or]
  rw [isFixed_of_isAlpha halpha] at h
  cases h

theorem isFixed_toLower {c : Char} (h : c.isAlpha = true) : isFixed c.toLower = false := by
  apply isFixed_of_isAlpha
  rw [Char.isAlpha_toLower_eq_isAlpha, h]

/-! ## The parts of a lowercased text -/

namespace Lowers

variable {s t u v : Text} {c : Char}

theorem eq_nil_iff (h : Lowers s t) : s = [] ↔ t = [] := by
  cases h with
  | nil => exact iff_of_true rfl rfl
  | fixed _ _ => exact iff_of_false (List.cons_ne_nil _ _) (List.cons_ne_nil _ _)
  | ascii _ _ => exact iff_of_false (List.cons_ne_nil _ _) (List.cons_ne_nil _ _)
  | letter _ _ hp _ _ =>
    refine iff_of_false (List.cons_ne_nil _ _) fun hnil => hp ?_
    exact (List.append_eq_nil_iff.mp hnil).1

theorem append (h : Lowers s t) (h' : Lowers u v) : Lowers (s ++ u) (t ++ v) := by
  induction h with
  | nil => exact h'
  | fixed hc _ ih => exact .fixed hc ih
  | ascii hc _ ih => exact .ascii hc ih
  | letter hn hc hp hd _ ih =>
    rw [List.append_assoc]
    exact .letter hn hc hp hd ih

theorem reverse (h : Lowers s t) : Lowers s.reverse t.reverse := by
  induction h with
  | nil => exact .nil
  | fixed hc _ ih =>
    rw [List.reverse_cons, List.reverse_cons]
    exact ih.append (.fixed hc .nil)
  | ascii hc _ ih =>
    rw [List.reverse_cons, List.reverse_cons]
    exact ih.append (.ascii hc .nil)
  | @letter c piece s t hn hc hp hd _ ih =>
    rw [List.reverse_cons, List.reverse_append]
    refine ih.append ?_
    rw [← List.append_nil piece.reverse]
    refine .letter hn hc (by simpa using hp) (fun d hmem => hd d ?_) .nil
    exact List.mem_reverse.mp hmem

/-- A test that only the fixed characters can fail. -/
theorem all_eq {p : Char → Bool} (hp : ∀ c, isFixed c = false → p c = true) (h : Lowers s t) :
    s.all p = t.all p := by
  induction h with
  | nil => rfl
  | fixed _ _ ih => rw [List.all_cons, List.all_cons, ih]
  | ascii hc _ ih =>
    rw [List.all_cons, List.all_cons, ih, hp _ (isFixed_of_isAlpha hc), hp _ (isFixed_toLower hc)]
  | letter _ hc _ hd _ ih =>
    rw [List.all_cons, List.all_append, ih, hp _ hc, List.all_eq_true.mpr fun d hmem => hp d (hd d hmem)]

theorem ne_of_isFixed {d : Char} (hc : isFixed c = true) (hd : isFixed d = false) : d ≠ c := by
  rintro rfl
  rw [hc] at hd
  cases hd

/-- Splitting at a fixed character goes through the parts. -/
theorem splitOn (hc : isFixed c = true) (h : Lowers s t) :
    List.Forall₂ Lowers (s.splitOn c) (t.splitOn c) := by
  -- a character that is not the separator goes in front of the first part
  have hcons : ∀ {d : Char} {piece s t : Text}, d ≠ c → (∀ e ∈ piece, e ≠ c) →
      (∀ {s t}, Lowers s t → Lowers (d :: s) (piece ++ t)) →
      List.Forall₂ Lowers (s.splitOn c) (t.splitOn c) →
      List.Forall₂ Lowers ((d :: s).splitOn c) ((piece ++ t).splitOn c) := by
    intro d piece s t hd hpiece hlow ih
    rw [List.splitOn_cons_eq_if_modifyHead, if_neg (by simpa using hd)]
    have happend : (piece ++ t).splitOn c = (t.splitOn c).modifyHead (piece ++ ·) := by
      clear hlow ih
      induction piece with
      | nil =>
        rw [List.nil_append]
        cases t.splitOn c <;> rfl
      | cons e piece ihp =>
        rw [List.cons_append, List.splitOn_cons_eq_if_modifyHead,
          if_neg (by simpa using hpiece e List.mem_cons_self),
          ihp fun x hx => hpiece x (List.mem_cons_of_mem _ hx)]
        cases t.splitOn c <;> rfl
    rw [happend]
    revert ih
    generalize s.splitOn c = ss
    generalize t.splitOn c = ts
    intro ih
    cases ih with
    | nil => exact .nil
    | cons hhead htail => exact .cons (hlow hhead) htail
  induction h with
  | nil =>
    rw [List.splitOn_nil]
    exact .cons .nil .nil
  | @fixed d s t hd hst ih =>
    by_cases hdc : d = c
    · subst hdc
      rw [List.splitOn_cons_eq_if_modifyHead, List.splitOn_cons_eq_if_modifyHead, if_pos (by simp),
        if_pos (by simp)]
      exact .cons .nil ih
    · exact @hcons d [d] _ _ hdc (by simpa using hdc) (fun h => .fixed hd h) ih
  | @ascii d s t hd hst ih =>
    refine @hcons d [d.toLower] _ _ (ne_of_isFixed hc (isFixed_of_isAlpha hd)) ?_
      (fun h => .ascii hd h) ih
    rintro e he
    rw [List.mem_singleton.mp he]
    exact ne_of_isFixed hc (isFixed_toLower hd)
  | letter hn hd hp hpiece hst ih =>
    exact hcons (ne_of_isFixed hc hd) (fun e he => ne_of_isFixed hc (hpiece e he))
      (fun h => .letter hn hd hp hpiece h) ih

/-- ASCII text is lowercased letter by letter. -/
theorem eq_map_toLower (h : Lowers s t) (ha : ∀ c ∈ s, c.toNat < 128) : t = s.map Char.toLower := by
  induction h with
  | nil => rfl
  | fixed hc _ ih =>
    rw [List.map_cons, toLower_of_isFixed hc, ← ih fun c hm => ha c (List.mem_cons_of_mem _ hm)]
  | ascii hc _ ih =>
    rw [List.map_cons, ← ih fun c hm => ha c (List.mem_cons_of_mem _ hm)]
  | letter hn _ _ _ _ _ =>
    exact absurd (ha _ List.mem_cons_self) (by omega)

theorem head?_isSpace (h : Lowers s t) : (s.head?.any isSpace) = (t.head?.any isSpace) := by
  have hletter : ∀ {d : Char}, isFixed d = false → isSpace d = false := by
    intro d hd
    unfold isFixed at hd
    exact (Bool.or_eq_false_iff.mp hd).1
  cases h with
  | nil => rfl
  | fixed _ _ => rfl
  | ascii hc _ =>
    show isSpace _ = isSpace _
    rw [hletter (isFixed_of_isAlpha hc), hletter (isFixed_toLower hc)]
  | @letter c piece s t _ hc hp hd _ =>
    cases piece with
    | nil => exact absurd rfl hp
    | cons d piece =>
      show isSpace _ = isSpace _
      rw [hletter hc, hletter (hd d List.mem_cons_self)]

end Lowers

/-! ## Trimming -/

theorem dropWhile_eq_self_iff {s : Text} :
    s.dropWhile isSpace = s ↔ s.head?.any isSpace = false := by
  cases s with
  | nil => exact iff_of_true rfl rfl
  | cons c s =>
    rw [List.dropWhile_cons]
    show _ ↔ isSpace c = false
    cases hc : isSpace c with
    | true =>
      refine iff_of_false (fun h => ?_) (by decide)
      have hle := (List.dropWhile_sublist (l := s) isSpace).length_le
      rw [if_pos rfl] at h
      rw [h, List.length_cons] at hle
      omega
    | false => exact iff_of_true (if_neg (by decide)) rfl

/-- Text without white space at either end is trimmed. -/
theorem trim_eq_self_iff {s : Text} :
    trim s = s ↔ s.head?.any isSpace = false ∧ s.reverse.head?.any isSpace = false := by
  unfold trim List.rdropWhile
  rw [← dropWhile_eq_self_iff, ← dropWhile_eq_self_iff]
  constructor
  · intro h
    have hfirst : s.dropWhile isSpace = s := by
      refine (List.dropWhile_sublist isSpace).eq_of_length_le ?_
      have hle := (List.dropWhile_sublist (l := (s.dropWhile isSpace).reverse) isSpace).length_le
      rw [List.length_reverse] at hle
      have hlen := congrArg List.length h
      rw [List.length_reverse] at hlen
      omega
    rw [hfirst] at h
    exact ⟨hfirst, (List.reverse_eq_iff.mp h)⟩
  · rintro ⟨hfirst, hlast⟩
    rw [hfirst, hlast, List.reverse_reverse]

theorem trim_of_all {s : Text} (h : ∀ c ∈ s, isSpace c = false) : trim s = s := by
  rw [trim_eq_self_iff]
  constructor
  · cases s with
    | nil => rfl
    | cons c s => exact h c List.mem_cons_self
  · cases hs : s.reverse with
    | nil => rfl
    | cons c t =>
      refine h c (List.mem_reverse.mp ?_)
      rw [hs]
      exact List.mem_cons_self

theorem head?_dropWhile (s : Text) : (s.dropWhile isSpace).head?.any isSpace = false := by
  induction s with
  | nil => rfl
  | cons c s ih =>
    rw [List.dropWhile_cons]
    cases hc : isSpace c with
    | true => exact ih
    | false => exact hc

@[simp] theorem trim_trim (s : Text) : trim (trim s) = trim s := by
  rw [trim_eq_self_iff]
  unfold trim List.rdropWhile
  rw [List.reverse_reverse]
  refine ⟨?_, head?_dropWhile _⟩
  -- what is left starts like the text without its first blanks
  have hprefix : ((s.dropWhile isSpace).reverse.dropWhile isSpace).reverse <+: s.dropWhile isSpace := by
    rw [← List.reverse_suffix, List.reverse_reverse]
    exact List.dropWhile_suffix isSpace
  have hhead := head?_dropWhile s
  obtain ⟨rest, hrest⟩ := hprefix
  rw [← hrest] at hhead
  generalize ((s.dropWhile isSpace).reverse.dropWhile isSpace).reverse = t at hhead ⊢
  cases t with
  | nil => rfl
  | cons c t => exact hhead

/-- What is cut off by trimming is at the ends. -/
theorem trim_append_of_isSpace {c : Char} {s : Text} (h : isSpace c = true) :
    trim (c :: s) = trim s := by
  unfold trim
  rw [List.dropWhile_cons, if_pos h]

theorem mem_of_mem_trim {c : Char} {s : Text} (h : c ∈ trim s) : c ∈ s := by
  unfold trim List.rdropWhile at h
  rw [List.mem_reverse] at h
  have hmem := (List.dropWhile_sublist isSpace).subset h
  exact (List.dropWhile_sublist isSpace).subset (List.mem_reverse.mp hmem)

/-- Only white space is trimmed away. -/
theorem isSpace_of_trim_eq_nil {s : Text} (h : trim s = []) : ∀ c ∈ s, isSpace c = true := by
  unfold trim at h
  rw [List.rdropWhile_eq_nil_iff] at h
  intro c hc
  rw [← List.takeWhile_append_dropWhile (p := isSpace) (l := s), List.mem_append] at hc
  rcases hc with hc | hc
  · exact List.mem_takeWhile_imp hc
  · exact h c hc

/-- Lowercasing leaves white space where it is: what is trimmed lowercased was trimmed. -/
theorem Lowers.trim_eq_self {s t : Text} (h : Lowers s t) : trim s = s ↔ trim t = t := by
  rw [trim_eq_self_iff, trim_eq_self_iff, h.head?_isSpace, h.reverse.head?_isSpace]

/-! ## Lists of texts -/

theorem map_trim_splitOn_cons {c d : Char} (s : Text) (hd : isSpace d = true) (hne : d ≠ c) :
    ((d :: s).splitOn c).map trim = (s.splitOn c).map trim := by
  rw [List.splitOn_cons_eq_if_modifyHead, if_neg (by simpa using hne)]
  cases s.splitOn c with
  | nil => rfl
  | cons a l =>
    show trim (d :: a) :: l.map trim = _
    rw [trim_append_of_isSpace hd]
    rfl

/-- A list of trimmed texts without a comma is read back from `join(", ")`. -/
theorem map_trim_splitOn_join {l : List Text} (hl : l ≠ []) (h : ∀ a ∈ l, ',' ∉ a ∧ trim a = a) :
    ((join ", " l).splitOn ',').map trim = l := by
  induction l with
  | nil => exact absurd rfl hl
  | cons a l ih =>
    obtain ⟨hcomma, htrim⟩ := h a List.mem_cons_self
    cases l with
    | nil =>
      show ((a.splitOn ',').map trim) = [a]
      rw [List.splitOn_eq_singleton hcomma, List.map_singleton, htrim]
    | cons b l =>
      have hjoin : join ", " (a :: b :: l) = a ++ ',' :: ' ' :: join ", " (b :: l) := by
        show a ++ ", ".toList ++ join ", " (b :: l) = _
        rw [List.append_assoc]
        rfl
      rw [hjoin, List.splitOn_append_cons_self_of_not_mem hcomma, List.map_cons, htrim,
        map_trim_splitOn_cons _ (by decide) (by decide),
        ih (List.cons_ne_nil _ _) fun x hx => h x (List.mem_cons_of_mem _ hx)]

theorem join_eq_nil_iff {l : List Text} (h : ∀ a ∈ l, a ≠ []) : join ", " l = [] ↔ l = [] := by
  cases l with
  | nil => exact iff_of_true rfl rfl
  | cons a l =>
    refine iff_of_false (fun hj => h a List.mem_cons_self ?_) (List.cons_ne_nil _ _)
    cases l with
    | nil => exact hj
    | cons b l =>
      have hj' : a ++ ", ".toList ++ join ", " (b :: l) = [] := hj
      rw [List.append_assoc] at hj'
      exact (List.append_eq_nil_iff.mp hj').1

theorem join_append {l l' : List Text} (h : l ≠ []) (h' : l' ≠ []) :
    join ", " (l ++ l') = join ", " [join ", " l, join ", " l'] := by
  induction l with
  | nil => exact absurd rfl h
  | cons a l ih =>
    obtain ⟨b, l', rfl⟩ := List.exists_cons_of_ne_nil h'
    cases l with
    | nil => rfl
    | cons c l =>
      have hrest := ih (List.cons_ne_nil c l)
      show a ++ ", ".toList ++ join ", " (c :: l ++ b :: l') = a ++ ", ".toList ++ join ", " (c :: l) ++
        ", ".toList ++ join ", " (b :: l')
      rw [hrest]
      show a ++ ", ".toList ++ (join ", " (c :: l) ++ ", ".toList ++ join ", " (b :: l')) = _
      simp only [List.append_assoc]

/-! ## ASCII -/

/-- Lowercasing of ASCII letters only. -/
def asciiLower (s : Text) : Text := s.map Char.toLower

theorem toLower_of_not_isAlpha {c : Char} (h : c.isAlpha = false) : c.toLower = c := by
  refine Char.toLower_eq_of_not_isUpper fun hu => ?_
  unfold Char.isAlpha at h
  rw [hu, Bool.true_or] at h
  cases h

theorem lowers_asciiLower (s : Text) : Lowers s (asciiLower s) := by
  induction s with
  | nil => exact .nil
  | cons c s ih =>
    show Lowers (c :: s) (c.toLower :: asciiLower s)
    cases ha : c.isAlpha with
    | true => exact .ascii ha ih
    | false =>
      rw [toLower_of_not_isAlpha ha]
      cases hf : isFixed c with
      | true => exact .fixed hf ih
      | false =>
        have hn : 128 ≤ c.toNat := by
          by_contra hlt
          unfold isFixed at hf
          rw [ha, Bool.not_false, Bool.and_true, Bool.or_eq_false_iff, decide_eq_false_iff_not] at hf
          omega
        refine @Lowers.letter c [c] _ _ hn hf (List.cons_ne_nil _ _) (fun d hd => ?_) ih
        rw [List.mem_singleton.mp hd]
        exact hf

/-- On ASCII text this is `toLowerCase`. -/
theorem isLowerCase_asciiLower : IsLowerCase asciiLower where
  lowers := lowers_asciiLower
  idempotent s := by
    unfold asciiLower
    rw [List.map_map]
    exact List.map_congr_left fun c _ => Char.toLower_toLower_eq_toLower c
  around_at s t := by
    unfold asciiLower
    rw [List.map_append, List.map_cons]
    rfl
  length s := by
    unfold asciiLower utf16Length
    rw [List.map_map]
    refine List.sum_le_sum fun c _ => ?_
    show (if c.toNat < 0x10000 then 1 else 2) ≤ if c.toLower.toNat < 0x10000 then 1 else 2
    by_cases ha : c.isAlpha = true
    · have hn := isAlpha_toNat ha
      rw [if_pos (by omega)]
      split_ifs <;> omega
    · rw [toLower_of_not_isAlpha (Bool.not_eq_true _ ▸ ha)]

end Text
