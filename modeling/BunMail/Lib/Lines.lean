import Mathlib.Data.List.Infix
import BunMail.Lib.Rows

/-!
# Lines that end with two units

A text cut into lines at every pair of a carriage return and a line feed; either unit alone is a unit
like any other.
-/

namespace Lines

variable {α : Type*} [DecidableEq α] {cr lf u : α} {l s t : List α} {ls : List (List α)}

/-- The unit in front of the first line. -/
def prepend (u : α) : List (List α) → List (List α)
  | [] => [[u]]
  | l :: ls => (u :: l) :: ls

/-- The lines of a text. -/
def lines (cr lf : α) : List α → List (List α)
  | [] => [[]]
  | [u] => [[u]]
  | u :: v :: s => if u = cr ∧ v = lf then [] :: lines cr lf s else prepend u (lines cr lf (v :: s))

/-- No line break inside. -/
def Unbroken (cr lf : α) (l : List α) : Prop := ¬[cr, lf] <:+: l

/-- Lines with a break between them. -/
def joinLines (cr lf : α) (ls : List (List α)) : List α := [cr, lf].intercalate ls

/-! ## Joining -/

omit [DecidableEq α] in
theorem joinLines_cons (l : List α) (h : ls ≠ []) :
    joinLines cr lf (l :: ls) = l ++ cr :: lf :: joinLines cr lf ls := by
  obtain ⟨next, rest, rfl⟩ := List.exists_cons_of_ne_nil h
  unfold joinLines
  rw [List.intercalate_cons_cons, List.append_assoc]
  rfl

omit [DecidableEq α] in
theorem joinLines_singleton (l : List α) : joinLines cr lf [l] = l := List.intercalate_singleton

omit [DecidableEq α] in
theorem joinLines_concat (h : ls ≠ []) (l : List α) :
    joinLines cr lf (ls ++ [l]) = joinLines cr lf ls ++ cr :: lf :: l := by
  induction ls with
  | nil => exact absurd rfl h
  | cons first ls ih =>
    cases ls with
    | nil => rw [List.singleton_append, joinLines_cons _ (by simp), joinLines_singleton, joinLines_singleton]
    | cons next ls =>
      rw [List.cons_append, joinLines_cons first (by simp), ih (by simp), joinLines_cons first (by simp)]
      simp

omit [DecidableEq α] in
/-- Every line closed by a break. -/
theorem joinLines_append_break (h : ls ≠ []) :
    joinLines cr lf ls ++ [cr, lf] = ls.flatMap (· ++ [cr, lf]) := by
  induction ls with
  | nil => exact absurd rfl h
  | cons l ls ih =>
    cases ls with
    | nil => simp [joinLines_singleton]
    | cons next ls =>
      rw [joinLines_cons _ (by simp), List.flatMap_cons, ← ih (by simp)]
      simp

/-! ## Cutting -/

theorem lines_ne_nil (cr lf : α) (t : List α) : lines cr lf t ≠ [] := by
  fun_cases lines cr lf t with
  | case1 => simp
  | case2 u => simp
  | case3 u v s h => simp
  | case4 u v s h =>
    unfold prepend
    split <;> simp

theorem join_lines (cr lf : α) (t : List α) : joinLines cr lf (lines cr lf t) = t := by
  fun_induction lines cr lf t with
  | case1 => exact joinLines_singleton []
  | case2 u => exact joinLines_singleton [u]
  | case3 u v s h ih =>
    rw [joinLines_cons _ (lines_ne_nil cr lf s), ih, h.1, h.2]
    rfl
  | case4 u v s h ih =>
    obtain ⟨l, ls, hlines⟩ := List.exists_cons_of_ne_nil (lines_ne_nil cr lf (v :: s))
    rw [hlines] at ih ⊢
    unfold prepend
    cases ls with
    | nil =>
      rw [joinLines_singleton] at ih ⊢
      rw [ih]
    | cons next ls =>
      rw [joinLines_cons _ (by simp)] at ih ⊢
      rw [List.cons_append, ih]

omit [DecidableEq α] in
theorem unbroken_cons : Unbroken cr lf (u :: l) ↔ ¬(u = cr ∧ l.head? = some lf) ∧ Unbroken cr lf l := by
  unfold Unbroken
  rw [List.infix_cons_iff, not_or]
  refine and_congr_left fun _ => not_congr ?_
  rw [List.cons_prefix_cons]
  cases l with
  | nil => simp
  | cons v l => simp [List.cons_prefix_cons, eq_comm]

omit [DecidableEq α] in
theorem unbroken_nil : Unbroken cr lf ([] : List α) := by
  unfold Unbroken
  rw [List.infix_nil]
  exact List.cons_ne_nil _ _

theorem unbroken_of_mem_lines (h : l ∈ lines cr lf t) : Unbroken cr lf l := by
  fun_induction lines cr lf t generalizing l with
  | case1 =>
    rw [List.mem_singleton.mp h]
    exact unbroken_nil
  | case2 u =>
    rw [List.mem_singleton.mp h]
    exact unbroken_cons.mpr ⟨fun hpair => absurd hpair.2 (by simp), unbroken_nil⟩
  | case3 u v s hbreak ih =>
    rcases List.mem_cons.mp h with rfl | h
    · exact unbroken_nil
    · exact ih h
  | case4 u v s hbreak ih =>
    obtain ⟨first, ls, hlines⟩ := List.exists_cons_of_ne_nil (lines_ne_nil cr lf (v :: s))
    have hjoin := join_lines cr lf (v :: s)
    rw [hlines] at ih h hjoin
    unfold prepend at h
    rcases List.mem_cons.mp h with rfl | h
    · refine unbroken_cons.mpr ⟨?_, ih List.mem_cons_self⟩
      rintro ⟨hu, hhead⟩
      obtain ⟨rest, rfl⟩ := List.head?_eq_some_iff.mp hhead
      have hv : lf = v := by
        cases ls with
        | nil =>
          rw [joinLines_singleton] at hjoin
          exact (List.cons.inj hjoin).1
        | cons next ls =>
          rw [joinLines_cons _ (by simp)] at hjoin
          exact (List.cons.inj hjoin).1
      exact hbreak ⟨hu, hv.symm⟩
    · exact ih (List.mem_cons_of_mem _ h)

theorem lines_of_unbroken (h : Unbroken cr lf l) : lines cr lf l = [l] := by
  fun_induction lines cr lf l with
  | case1 => rfl
  | case2 u => rfl
  | case3 u v s hbreak ih =>
    refine absurd ?_ (unbroken_cons.mp h).1
    exact ⟨hbreak.1, by rw [hbreak.2]; rfl⟩
  | case4 u v s hbreak ih =>
    rw [ih (unbroken_cons.mp h).2]
    rfl

theorem lines_append_break (hne : cr ≠ lf) (h : Unbroken cr lf l) (s : List α) :
    lines cr lf (l ++ cr :: lf :: s) = l :: lines cr lf s := by
  induction l with
  | nil => rw [List.nil_append, lines, if_pos ⟨rfl, rfl⟩]
  | cons u l ih =>
    obtain ⟨hhead, hl⟩ := unbroken_cons.mp h
    have hrest := ih hl
    have hgoes : lines cr lf (u :: (l ++ cr :: lf :: s)) = prepend u (lines cr lf (l ++ cr :: lf :: s)) := by
      cases l with
      | nil => rw [List.nil_append, lines, if_neg fun hpair => hne hpair.2]
      | cons v l =>
        rw [List.cons_append, lines, if_neg fun hpair => hhead ⟨hpair.1, by rw [hpair.2]; rfl⟩]
    rw [List.cons_append, hgoes, hrest]
    rfl

theorem lines_join (hne : cr ≠ lf) (hls : ls ≠ []) (h : ∀ l ∈ ls, Unbroken cr lf l) :
    lines cr lf (joinLines cr lf ls) = ls := by
  induction ls with
  | nil => exact absurd rfl hls
  | cons l ls ih =>
    cases ls with
    | nil => rw [joinLines_singleton, lines_of_unbroken (h l List.mem_cons_self)]
    | cons next ls =>
      rw [joinLines_cons _ (by simp), lines_append_break hne (h l List.mem_cons_self),
        ih (by simp) fun l' hl' => h l' (List.mem_cons_of_mem _ hl')]

end Lines
