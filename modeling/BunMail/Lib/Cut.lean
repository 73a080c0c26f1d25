import Mathlib.Data.List.Infix
import Mathlib.Data.List.TakeWhile

/-!
# Cutting at the first occurrence

A list cut at the first place where a pattern stands.
-/

variable {α : Type*}

/-- The pattern first stands between `a` and `b`. -/
structure FirstCut (pat s a b : List α) : Prop where
  split : s = a ++ (pat ++ b)
  first : ∀ a' b', s = a' ++ (pat ++ b') → a.length ≤ a'.length

variable {pat s a b a' b' : List α} {u : α}

theorem FirstCut.unique (h : FirstCut pat s a b) (h' : FirstCut pat s a' b') : a = a' ∧ b = b' := by
  have hlength : a.length = a'.length :=
    Nat.le_antisymm (h.first a' b' h'.split) (h'.first a b h.split)
  obtain ⟨rfl, hrest⟩ := List.append_inj (h.split.symm.trans h'.split) hlength
  exact ⟨rfl, List.append_cancel_left hrest⟩

theorem FirstCut.suffix (h : FirstCut pat s a b) : b <:+ s :=
  ⟨a ++ pat, by rw [h.split, List.append_assoc]⟩

/-- A single unit first stands where no unit before is the same. -/
theorem firstCut_singleton : FirstCut [u] s a b ↔ s = a ++ u :: b ∧ u ∉ a := by
  constructor
  · rintro ⟨hsplit, hfirst⟩
    refine ⟨hsplit, fun hmem => ?_⟩
    obtain ⟨front, back, rfl⟩ := List.append_of_mem hmem
    have hle := hfirst front (back ++ u :: b) (by simp [hsplit])
    rw [List.length_append, List.length_cons] at hle
    omega
  · rintro ⟨rfl, hnot⟩
    refine ⟨rfl, fun a' b' heq => ?_⟩
    by_contra hlt
    have htake : a' ++ [u] <+: a := by
      have hbegins : a' ++ [u] <+: a ++ u :: b := ⟨b', by rw [heq, List.append_assoc]⟩
      exact List.prefix_of_prefix_length_le hbegins (List.prefix_append a _) (by simp; omega)
    exact hnot (htake.subset (by simp))

variable [DecidableEq α]

/-- What stands before the first occurrence of the pattern, and what follows it. -/
def cut? (pat : List α) : List α → Option (List α × List α)
  | [] => if pat = [] then some ([], []) else none
  | u :: s =>
    if pat <+: u :: s then some ([], (u :: s).drop pat.length)
    else (cut? pat s).map fun found => (u :: found.1, found.2)

theorem cut?_eq_some : cut? pat s = some (a, b) ↔ FirstCut pat s a b := by
  induction s generalizing a with
  | nil =>
    rw [cut?]
    split_ifs with hpat
    · subst hpat
      constructor
      · intro h
        cases h
        exact ⟨rfl, fun _ _ _ => Nat.zero_le _⟩
      · rintro ⟨hsplit, _⟩
        obtain ⟨rfl, hb⟩ := List.append_eq_nil_iff.mp hsplit.symm
        rw [List.nil_append] at hb
        rw [hb]
    · refine iff_of_false nofun fun h => hpat ?_
      exact (List.append_eq_nil_iff.mp (List.append_eq_nil_iff.mp h.split.symm).2).1
  | cons u s ih =>
    rw [cut?]
    split_ifs with hpat
    · obtain ⟨rest, hrest⟩ := hpat
      rw [← hrest, List.drop_left]
      constructor
      · intro h
        cases h
        exact ⟨rfl, fun _ _ _ => Nat.zero_le _⟩
      · intro h
        have hhere : FirstCut pat (pat ++ rest) [] rest := ⟨rfl, fun _ _ _ => Nat.zero_le _⟩
        obtain ⟨rfl, rfl⟩ := h.unique hhere
        rfl
    · rw [Option.map_eq_some_iff]
      constructor
      · rintro ⟨⟨front, back⟩, hfound, heq⟩
        cases heq
        obtain ⟨hsplit, hfirst⟩ := ih.mp hfound
        refine ⟨by rw [hsplit]; rfl, fun a' b' heq => ?_⟩
        cases a' with
        | nil => exact absurd ⟨b', heq.symm⟩ hpat
        | cons v a' =>
          rw [List.cons_append, List.cons.injEq] at heq
          exact Nat.succ_le_succ (hfirst a' b' heq.2)
      · rintro ⟨hsplit, hfirst⟩
        cases a with
        | nil => exact absurd ⟨b, hsplit.symm⟩ hpat
        | cons v a =>
          rw [List.cons_append, List.cons.injEq] at hsplit
          obtain ⟨rfl, hsplit⟩ := hsplit
          refine ⟨(a, b), ih.mpr ⟨hsplit, fun a' b' heq => ?_⟩, rfl⟩
          exact Nat.le_of_succ_le_succ (hfirst (u :: a') b' (by rw [heq]; rfl))

theorem cut?_eq_none : cut? pat s = none ↔ ¬pat <:+: s := by
  induction s with
  | nil =>
    rw [cut?, List.infix_nil]
    split_ifs with hpat
    · exact iff_of_false nofun (not_not.mpr hpat)
    · exact iff_of_true rfl hpat
  | cons u s ih =>
    rw [cut?, List.infix_cons_iff]
    split_ifs with hpat
    · exact iff_of_false nofun (not_not.mpr (.inl hpat))
    · rw [Option.map_eq_none_iff, ih, not_or]
      exact (and_iff_right hpat).symm

/-- A pattern that stands somewhere stands first somewhere. -/
theorem exists_firstCut (h : pat <:+: s) : ∃ a b, FirstCut pat s a b := by
  cases hcut : cut? pat s with
  | none => exact absurd h (cut?_eq_none.mp hcut)
  | some found => exact ⟨found.1, found.2, cut?_eq_some.mp hcut⟩
