import BunMail.Lib.Fields

/-!
# Stripping and splitting a text

A class of characters stripped from both ends.  What is left of a text is found again from any way to
write it as a middle without such characters between two ends of them.  What a text
is split into follows from what its parts are split into.
-/

namespace Text

/-- The text without the characters of a class at its ends. -/
def strip (p : Char → Bool) (s : Text) : Text := (s.dropWhile p).rdropWhile p

theorem trim_eq_strip (s : Text) : trim s = strip isSpace s := rfl

variable {p : Char → Bool} {s a b middle : Text}

theorem exists_strip (p : Char → Bool) (s : Text) : ∃ a b, s = a ++ (strip p s ++ b) ∧
    (∀ c ∈ a, p c = true) ∧ ∀ c ∈ b, p c = true := by
  refine ⟨s.takeWhile p, ((s.dropWhile p).reverse.takeWhile p).reverse, ?_,
    fun c => List.mem_takeWhile_imp, fun c hc => List.mem_takeWhile_imp (List.mem_reverse.mp hc)⟩
  have hright : strip p s ++ ((s.dropWhile p).reverse.takeWhile p).reverse = s.dropWhile p := by
    unfold strip List.rdropWhile
    rw [← List.reverse_append, List.takeWhile_append_dropWhile, List.reverse_reverse]
  rw [hright, List.takeWhile_append_dropWhile]

theorem strip_of_all (h : ∀ c ∈ s, p c = true) : strip p s = [] := by
  unfold strip
  rw [List.dropWhile_eq_nil_iff.mpr h]
  rfl

theorem strip_append (ha : ∀ c ∈ a, p c = true) (hmiddle : ∀ c ∈ middle, p c = false)
    (hb : ∀ c ∈ b, p c = true) : strip p (a ++ (middle ++ b)) = middle := by
  cases hm : middle with
  | nil =>
    refine strip_of_all fun c hc => ?_
    rcases List.mem_append.mp hc with hc | hc
    · exact ha c hc
    · exact hb c hc
  | cons x xs =>
    have hx : ¬p x = true := by rw [hmiddle x (by rw [hm]; exact List.mem_cons_self)]; exact Bool.false_ne_true
    have hlast : ¬p ((x :: xs).getLast (List.cons_ne_nil x xs)) = true := by
      rw [hmiddle _ (by rw [hm]; exact List.getLast_mem _)]
      exact Bool.false_ne_true
    unfold strip
    rw [List.dropWhile_append_of_pos ha, List.cons_append, List.dropWhile_cons_of_neg hx,
      ← List.cons_append]
    unfold List.rdropWhile
    rw [List.reverse_append, List.dropWhile_append_of_pos fun c hc => hb c (List.mem_reverse.mp hc)]
    exact List.rdropWhile_eq_self_iff.mpr fun _ => hlast

/-- What is left is nothing exactly when the text has no other character. -/
theorem strip_eq_nil : strip p s = [] ↔ ∀ c ∈ s, p c = true := by
  refine ⟨fun h c hc => ?_, strip_of_all⟩
  obtain ⟨a, b, hs, ha, hb⟩ := exists_strip p s
  rw [hs, h, List.nil_append] at hc
  rcases List.mem_append.mp hc with hc | hc
  · exact ha c hc
  · exact hb c hc

/-! ## Splitting -/

section Split

variable {c : Char} {u : Text} {parts : List Text}

theorem splitOn_append_of_notMem (hu : c ∉ u) (hs : s.splitOn c = a :: parts) :
    (u ++ s).splitOn c = (u ++ a) :: parts := by
  induction u with
  | nil => exact hs
  | cons d u ih =>
    have hne : (d == c) = false := beq_eq_false_iff_ne.mpr fun heq => hu (heq ▸ List.mem_cons_self)
    rw [List.cons_append, List.splitOn_cons_eq_if_modifyHead, hne,
      ih fun hc => hu (List.mem_cons_of_mem d hc)]
    rfl

/-- A text is its parts, each but the first after the separator. -/
theorem eq_of_splitOn (hs : s.splitOn c = a :: parts) : s = a ++ parts.flatMap (c :: ·) := by
  induction parts generalizing s a with
  | nil =>
    have hjoin : [c].intercalate (s.splitOn c) = s := List.intercalate_splitOn c
    rw [← hjoin, hs]
    simp
  | cons b parts ih =>
    have hjoin : [c].intercalate (s.splitOn c) = s := List.intercalate_splitOn c
    have hrest : ([c].intercalate (b :: parts)).splitOn c = b :: parts :=
      List.splitOn_intercalate c (fun l hl => notMem_of_mem_splitOn (hs ▸ List.mem_cons_of_mem a hl))
        (List.cons_ne_nil b parts)
    rw [← hjoin, hs, List.intercalate_cons_cons, ih hrest]
    simp

end Split

end Text
