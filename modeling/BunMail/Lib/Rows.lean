import Mathlib.Data.List.DropRight
import Mathlib.Data.List.Infix
import Mathlib.Tactic

/-!
# The rows of a text

A text is cut into rows at its separators, every row is stripped of blanks, and so is the text they are
joined to.  Which rows come out, and when two empty ones stand next to each other.
-/

variable {α : Type*}

/-! ## Stripping -/

/-- A list without the blanks at its ends. -/
def stripEnds (p : α → Bool) (l : List α) : List α := (l.dropWhile p).rdropWhile p

/-- No blank at either end. -/
structure Solid (p : α → Bool) (l : List α) : Prop where
  head : ∀ u ∈ l.head?, p u = false
  last : ∀ u ∈ l.getLast?, p u = false

section Strip

variable {p : α → Bool} {l a b m : List α}

theorem stripEnds_of_all (h : ∀ u ∈ l, p u = true) : stripEnds p l = [] := by
  unfold stripEnds
  rw [List.dropWhile_eq_nil_iff.mpr h]
  rfl

theorem stripEnds_append (ha : ∀ u ∈ a, p u = true) (hm : Solid p m) (hb : ∀ u ∈ b, p u = true) :
    stripEnds p (a ++ (m ++ b)) = m := by
  cases m with
  | nil =>
    refine stripEnds_of_all fun u hu => ?_
    rcases List.mem_append.mp hu with hu | hu
    · exact ha u hu
    · exact hb u hu
  | cons x m =>
    have hx : ¬p x = true := by rw [hm.head x rfl]; exact Bool.false_ne_true
    have hlast : ¬p ((x :: m).getLast (List.cons_ne_nil x m)) = true := by
      rw [hm.last _ (List.getLast?_eq_some_getLast _)]
      exact Bool.false_ne_true
    unfold stripEnds List.rdropWhile
    rw [List.dropWhile_append_of_pos ha, List.cons_append, List.dropWhile_cons_of_neg hx,
      ← List.cons_append, List.reverse_append,
      List.dropWhile_append_of_pos fun u hu => hb u (List.mem_reverse.mp hu)]
    exact List.rdropWhile_eq_self_iff.mpr fun _ => hlast

theorem solid_stripEnds (p : α → Bool) (l : List α) : Solid p (stripEnds p l) := by
  constructor
  · intro u hu
    have hbegins : stripEnds p l <+: l.dropWhile p := List.rdropWhile_prefix p _
    obtain ⟨t, ht⟩ := List.head?_eq_some_iff.mp hu
    obtain ⟨t', ht'⟩ := hbegins
    have hhead := List.head?_dropWhile_not p l
    rw [← ht', ht] at hhead
    simpa using hhead
  · intro u hu
    have hne : stripEnds p l ≠ [] := by
      intro h
      rw [h] at hu
      cases hu
    have hlast := List.rdropWhile_last_not p (l.dropWhile p) hne
    have heq : (stripEnds p l).getLast hne = u :=
      Option.some.inj ((List.getLast?_eq_some_getLast hne).symm.trans hu)
    rw [← heq]
    exact Bool.eq_false_iff.mpr hlast

theorem exists_stripEnds (p : α → Bool) (l : List α) : ∃ a b, l = a ++ (stripEnds p l ++ b) ∧
    (∀ u ∈ a, p u = true) ∧ ∀ u ∈ b, p u = true := by
  refine ⟨l.takeWhile p, ((l.dropWhile p).reverse.takeWhile p).reverse, ?_,
    fun u => List.mem_takeWhile_imp, fun u hu => List.mem_takeWhile_imp (List.mem_reverse.mp hu)⟩
  have hright : stripEnds p l ++ ((l.dropWhile p).reverse.takeWhile p).reverse = l.dropWhile p := by
    unfold stripEnds List.rdropWhile
    rw [← List.reverse_append, List.takeWhile_append_dropWhile, List.reverse_reverse]
  rw [hright, List.takeWhile_append_dropWhile]

theorem stripEnds_eq_nil : stripEnds p l = [] ↔ ∀ u ∈ l, p u = true := by
  refine ⟨fun h u hu => ?_, stripEnds_of_all⟩
  obtain ⟨a, b, hl, ha, hb⟩ := exists_stripEnds p l
  rw [hl, h, List.nil_append] at hu
  rcases List.mem_append.mp hu with hu | hu
  · exact ha u hu
  · exact hb u hu

theorem stripEnds_of_solid (h : Solid p l) : stripEnds p l = l := by
  have happend := stripEnds_append (a := []) (b := []) (p := p) (fun u hu => absurd hu List.not_mem_nil) h
    fun u hu => absurd hu List.not_mem_nil
  rwa [List.nil_append, List.append_nil] at happend

theorem stripEnds_sublist (p : α → Bool) (l : List α) : (stripEnds p l).Sublist l :=
  (List.rdropWhile_prefix p _).sublist.trans (List.dropWhile_suffix p).sublist

end Strip

/-! ## Rows -/

section Rows

variable {sep : α} {rows rows' : List (List α)}

theorem intercalate_cons_of_ne_nil (row : List α) (h : rows ≠ []) :
    [sep].intercalate (row :: rows) = row ++ sep :: [sep].intercalate rows := by
  obtain ⟨row', rows, rfl⟩ := List.exists_cons_of_ne_nil h
  rw [List.intercalate_cons_cons]
  simp

/-- Rows after rows are joined with a separator between them. -/
theorem intercalate_append_of_ne_nil (h : rows ≠ []) (h' : rows' ≠ []) :
    [sep].intercalate (rows ++ rows') = [sep].intercalate rows ++ sep :: [sep].intercalate rows' := by
  induction rows with
  | nil => exact absurd rfl h
  | cons row rows ih =>
    rw [List.cons_append, intercalate_cons_of_ne_nil row (List.append_ne_nil_of_right_ne_nil rows h')]
    cases rows with
    | nil => simp [List.intercalate]
    | cons row' rows =>
      rw [ih (List.cons_ne_nil row' rows), intercalate_cons_of_ne_nil row (List.cons_ne_nil row' rows)]
      simp

theorem intercalate_map_sublist {f : List α → List α} (h : ∀ row, (f row).Sublist row) :
    ([sep].intercalate (rows.map f)).Sublist ([sep].intercalate rows) := by
  induction rows with
  | nil => exact List.Sublist.refl _
  | cons row rows ih =>
    by_cases hne : rows = []
    · subst hne
      simpa [List.intercalate] using h row
    · rw [List.map_cons, intercalate_cons_of_ne_nil _ (fun hnil => hne (List.map_eq_nil_iff.mp hnil)),
        intercalate_cons_of_ne_nil row hne]
      exact (h row).append (ih.cons_cons sep)

theorem intercalate_of_empty (h : ∀ row ∈ rows, row = []) : ∀ u ∈ [sep].intercalate rows, u = sep := by
  induction rows with
  | nil => exact fun u hu => absurd hu List.not_mem_nil
  | cons row rows ih =>
    have hrow := h row List.mem_cons_self
    have hrows : ∀ row ∈ rows, row = [] := fun row hr => h row (List.mem_cons_of_mem _ hr)
    by_cases hne : rows = []
    · subst hne hrow
      exact fun u hu => absurd hu List.not_mem_nil
    · rw [intercalate_cons_of_ne_nil row hne, hrow, List.nil_append]
      intro u hu
      rcases List.mem_cons.mp hu with rfl | hu
      · rfl
      · exact ih hrows u hu

/-- Empty rows around others add separators around their text. -/
theorem intercalate_padded {before after : List (List α)} (hb : ∀ row ∈ before, row = [])
    (ha : ∀ row ∈ after, row = []) : ∃ a b, [sep].intercalate (before ++ (rows ++ after)) =
      a ++ ([sep].intercalate rows ++ b) ∧ (∀ u ∈ a, u = sep) ∧ ∀ u ∈ b, u = sep := by
  have hafter : ∃ b, [sep].intercalate (rows ++ after) = [sep].intercalate rows ++ b ∧ ∀ u ∈ b, u = sep := by
    by_cases hrows : rows = []
    · subst hrows
      exact ⟨_, rfl, intercalate_of_empty ha⟩
    by_cases hne : after = []
    · subst hne
      exact ⟨[], by rw [List.append_nil, List.append_nil], fun u hu => absurd hu List.not_mem_nil⟩
    · refine ⟨_, intercalate_append_of_ne_nil hrows hne, fun u hu => ?_⟩
      rcases List.mem_cons.mp hu with rfl | hu
      · rfl
      · exact intercalate_of_empty ha u hu
  obtain ⟨b, hb', hall⟩ := hafter
  by_cases hne : before = []
  · subst hne
    exact ⟨[], b, hb', fun u hu => absurd hu List.not_mem_nil, hall⟩
  by_cases hrest : rows ++ after = []
  · obtain ⟨rfl, rfl⟩ := List.append_eq_nil_iff.mp hrest
    refine ⟨[sep].intercalate before, [], by simp [List.intercalate], intercalate_of_empty hb,
      fun u hu => absurd hu List.not_mem_nil⟩
  · refine ⟨[sep].intercalate before ++ [sep], b, ?_, fun u hu => ?_, hall⟩
    · rw [intercalate_append_of_ne_nil hne hrest, hb']
      simp
    · rcases List.mem_append.mp hu with hu | hu
      · exact intercalate_of_empty hb u hu
      · exact List.mem_singleton.mp hu

/-- Rows of which the first and the last are not empty join to a solid text, when they are solid. -/
theorem solid_intercalate {p : α → Bool} (hsolid : ∀ row ∈ rows, Solid p row)
    (hends : Solid List.isEmpty rows) : Solid p ([sep].intercalate rows) := by
  constructor
  · intro u hu
    cases rows with
    | nil => cases hu
    | cons row rows =>
      have hrow : row ≠ [] := by simpa using hends.head row rfl
      obtain ⟨x, row, rfl⟩ := List.exists_cons_of_ne_nil hrow
      have hhead : ([sep].intercalate ((x :: row) :: rows)).head? = some x := by
        by_cases hne : rows = []
        · subst hne
          simp [List.intercalate]
        · rw [intercalate_cons_of_ne_nil _ hne]
          rfl
      obtain rfl := Option.some.inj (hhead.symm.trans hu)
      exact (hsolid _ List.mem_cons_self).head x rfl
  · intro u hu
    rcases List.eq_nil_or_concat rows with rfl | ⟨init, row, rfl⟩
    · cases hu
    · rw [List.concat_eq_append] at hsolid hends hu
      have hrow : row ≠ [] := by simpa using hends.last row (by simp)
      have hlast : ([sep].intercalate (init ++ [row])).getLast? = row.getLast? := by
        by_cases hne : init = []
        · subst hne
          simp [List.intercalate]
        · rw [intercalate_append_of_ne_nil hne (List.cons_ne_nil row []), List.getLast?_append]
          obtain ⟨x, row, rfl⟩ := List.exists_cons_of_ne_nil hrow
          simp [List.intercalate, List.getLast?_cons]
      rw [hlast] at hu
      exact (hsolid row (by simp)).last u hu

variable [DecidableEq α] {s : List α} {p : α → Bool}

theorem notMem_row {row : List α} (h : row ∈ s.splitOn sep) : sep ∉ row := by
  induction s generalizing row with
  | nil =>
    rw [List.splitOn_nil, List.mem_singleton] at h
    rw [h]
    exact List.not_mem_nil
  | cons u s ih =>
    rw [List.splitOn_cons_eq_if_modifyHead] at h
    split_ifs at h with hu
    · rcases List.mem_cons.mp h with rfl | h
      · exact List.not_mem_nil
      · exact ih h
    · obtain ⟨first, rows, hsplit⟩ := List.exists_cons_of_ne_nil (List.splitOn_ne_nil sep s)
      rw [hsplit] at h ih
      rcases List.mem_cons.mp h with rfl | h
      · intro hmem
        rcases List.mem_cons.mp hmem with rfl | hmem
        · exact hu (beq_self_eq_true _)
        · exact ih List.mem_cons_self hmem
      · exact ih (List.mem_cons_of_mem _ h)

/-- The rows that are left: stripped ones, from the first to the last that is not blank. -/
def keptRows (p : α → Bool) (sep : α) (s : List α) : List (List α) :=
  stripEnds List.isEmpty ((s.splitOn sep).map (stripEnds p))

theorem exists_keptRows (p : α → Bool) (sep : α) (s : List α) : ∃ before after,
    (s.splitOn sep).map (stripEnds p) = before ++ (keptRows p sep s ++ after) ∧
      (∀ row ∈ before, row = []) ∧ ∀ row ∈ after, row = [] := by
  obtain ⟨before, after, hsplit, hb, ha⟩ := exists_stripEnds List.isEmpty ((s.splitOn sep).map (stripEnds p))
  exact ⟨before, after, hsplit, fun row hr => List.isEmpty_iff.mp (hb row hr),
    fun row hr => List.isEmpty_iff.mp (ha row hr)⟩

theorem mem_keptRows {row : List α} (h : row ∈ keptRows p sep s) :
    ∃ r ∈ s.splitOn sep, stripEnds p r = row := by
  exact List.mem_map.mp ((stripEnds_sublist _ _).subset h)

/-- **Stripping every row and the text they are joined to leaves the rows that are kept.** -/
theorem stripEnds_rows (hsep : p sep = true) :
    stripEnds p ([sep].intercalate ((s.splitOn sep).map (stripEnds p))) =
      [sep].intercalate (keptRows p sep s) := by
  obtain ⟨before, after, hsplit, hb, ha⟩ := exists_keptRows p sep s
  obtain ⟨a, b, hjoin, hall, hall'⟩ := @intercalate_padded _ sep (keptRows p sep s) _ _ hb ha
  rw [hsplit, hjoin]
  refine stripEnds_append (fun u hu => hall u hu ▸ hsep) (solid_intercalate (fun row hr => ?_) ?_)
    fun u hu => hall' u hu ▸ hsep
  · obtain ⟨r, -, rfl⟩ := mem_keptRows hr
    exact solid_stripEnds p r
  · exact solid_stripEnds _ _

theorem splitOn_keptRows (h : keptRows p sep s ≠ []) :
    ([sep].intercalate (keptRows p sep s)).splitOn sep = keptRows p sep s := by
  refine List.splitOn_intercalate sep (fun row hr => ?_) h
  obtain ⟨r, hr', rfl⟩ := mem_keptRows hr
  exact fun hmem => notMem_row hr' ((stripEnds_sublist p r).subset hmem)

/-! ## Empty rows next to each other -/

/-- A row of blanks that is not empty has rows next to it that are not all blanks, as long as there are
any before it and after it. -/
def KeptApart (p : α → Bool) (rows : List (List α)) : Prop :=
  ∀ before row after, rows = before ++ row :: after → row ≠ [] → stripEnds p row = [] →
    (∃ r ∈ before, stripEnds p r ≠ []) → (∃ r ∈ after, stripEnds p r ≠ []) →
      (∀ r ∈ before.getLast?, stripEnds p r ≠ []) ∧ ∀ r ∈ after.head?, stripEnds p r ≠ []

/-- Two rows of blanks with other rows before and after them. -/
def DoubleBlank (p : α → Bool) (rows : List (List α)) : Prop :=
  ∃ before r r' after, rows = before ++ r :: r' :: after ∧ stripEnds p r = [] ∧ stripEnds p r' = [] ∧
    (∃ v ∈ before, stripEnds p v ≠ []) ∧ ∃ v ∈ after, stripEnds p v ≠ []

omit [DecidableEq α] in
theorem keptApart_iff (hempty : ∀ before after, rows = before ++ [] :: [] :: after → after = []) :
    KeptApart p rows ↔ ¬DoubleBlank p rows := by
  constructor
  · rintro hapart ⟨before, r, r', after, hrows, hr, hr', hbefore, ⟨v, hv, hne⟩⟩
    by_cases hnil : r = []
    · by_cases hnil' : r' = []
      · subst hnil hnil'
        rw [hempty before after hrows] at hv
        cases hv
      · have hsplit : rows = (before ++ [r]) ++ r' :: after := by rw [hrows]; simp
        obtain ⟨w, hw, hwne⟩ := hbefore
        have hnext := (hapart _ r' after hsplit hnil' hr' ⟨w, by simp [hw], hwne⟩ ⟨v, hv, hne⟩).1
        exact hnext r (by simp) hr
    · have hnext := (hapart before r (r' :: after) hrows hnil hr hbefore ⟨v, by simp [hv], hne⟩).2
      exact hnext r' rfl hr'
  · intro hnot before row after hrows hne hrow ⟨v, hv, hvne⟩ ⟨w, hw, hwne⟩
    constructor
    · intro r hr hblank
      obtain ⟨init, rfl⟩ := List.getLast?_eq_some_iff.mp hr
      have hv' : v ∈ init := by
        rcases List.mem_append.mp hv with hv | hv
        · exact hv
        · rw [List.mem_singleton.mp hv] at hvne
          exact absurd hblank hvne
      exact hnot ⟨init, r, row, after, by rw [hrows]; simp, hblank, hrow, ⟨v, hv', hvne⟩, w, hw, hwne⟩
    · intro r hr hblank
      obtain ⟨rest, rfl⟩ := List.head?_eq_some_iff.mp hr
      have hw' : w ∈ rest := by
        rcases List.mem_cons.mp hw with rfl | hw
        · exact absurd hblank hwne
        · exact hw
      exact hnot ⟨before, row, r, rest, hrows, hrow, hblank, ⟨v, hv, hvne⟩, w, hw', hwne⟩

/-- **Two empty rows are left next to each other exactly where two rows of blanks stand so.** -/
theorem double_keptRows : [[], []] <:+: keptRows p sep s ↔ DoubleBlank p (s.splitOn sep) := by
  obtain ⟨before, after, hsplit, hb, ha⟩ := exists_keptRows p sep s
  have hsolid : Solid List.isEmpty (keptRows p sep s) := solid_stripEnds _ _
  constructor
  · rintro ⟨x, y, hxy⟩
    rw [← hxy] at hsplit hsolid
    have hx : ∃ v ∈ x, v ≠ [] := by
      cases x with
      | nil => exact absurd (hsolid.head [] rfl) (by simp)
      | cons v x => exact ⟨v, List.mem_cons_self, by simpa using hsolid.head v rfl⟩
    have hy : ∃ v ∈ y, v ≠ [] := by
      rcases List.eq_nil_or_concat y with rfl | ⟨y, v, rfl⟩
      · exact absurd (hsolid.last [] (by simp)) (by simp)
      · exact ⟨v, by simp, by simpa using hsolid.last v (by simp [List.getLast?_cons])⟩
    have hsplit' : (s.splitOn sep).map (stripEnds p) = (before ++ x) ++ [] :: [] :: (y ++ after) := by
      rw [hsplit]
      simp
    obtain ⟨pre, rest, hrows, hpre, hrest⟩ := List.map_eq_append_iff.mp hsplit'
    obtain ⟨r, rest, rfl, hr, hrest⟩ := List.map_eq_cons_iff.mp hrest
    obtain ⟨r', post, rfl, hr', hpost⟩ := List.map_eq_cons_iff.mp hrest
    obtain ⟨v, hv, hvne⟩ := hx
    obtain ⟨w, hw, hwne⟩ := hy
    obtain ⟨v, hv', rfl⟩ := List.mem_map.mp (hpre ▸ List.mem_append_right before hv)
    obtain ⟨w, hw', rfl⟩ := List.mem_map.mp (hpost ▸ List.mem_append_left after hw)
    exact ⟨pre, r, r', post, hrows, hr, hr', ⟨v, hv', hvne⟩, w, hw', hwne⟩
  · rintro ⟨pre, r, r', post, hrows, hr, hr', ⟨v, hv, hvne⟩, w, hw, hwne⟩
    have hboth : before ++ (keptRows p sep s ++ after) =
        pre.map (stripEnds p) ++ ([[], []] ++ post.map (stripEnds p)) := by
      rw [← hsplit, hrows, List.map_append, List.map_cons, List.map_cons, hr, hr']
      rfl
    rcases List.append_eq_append_iff.mp hboth with ⟨c, hpre, hrest⟩ | ⟨c, hbefore, -⟩
    · rw [← List.append_assoc] at hrest
      rcases List.append_eq_append_iff.mp hrest with ⟨d, -, hafter⟩ | ⟨d, hkept, -⟩
      · refine absurd (ha _ ?_) hwne
        rw [hafter]
        exact List.mem_append_right d (List.mem_map_of_mem hw)
      · exact ⟨c, d, hkept.symm⟩
    · refine absurd (hb _ ?_) hvne
      rw [hbefore]
      exact List.mem_append_left c (List.mem_map_of_mem hv)

/-! ## Few separators in a row -/

/-- No more than two separators in a row, and no more than `n` at the start. -/
def Sparse (sep : α) : ℕ → List α → Prop
  | _, [] => True
  | n, u :: s => if u = sep then 0 < n ∧ Sparse sep (n - 1) s else Sparse sep 2 s

variable {n : ℕ} {t : List α}

theorem Sparse.of_append (h : Sparse sep n (s ++ t)) : Sparse sep n s := by
  induction s generalizing n with
  | nil => trivial
  | cons u s ih =>
    rw [List.cons_append, Sparse] at h
    rw [Sparse]
    split_ifs at h ⊢ with hu
    · exact ⟨h.1, ih h.2⟩
    · exact ih h

theorem Sparse.append (hs : Sparse sep n s) (hne : s ≠ []) (hlast : s.getLast? ≠ some sep)
    (ht : Sparse sep 2 t) : Sparse sep n (s ++ t) := by
  induction s generalizing n with
  | nil => exact absurd rfl hne
  | cons u s ih =>
    rw [Sparse] at hs
    rw [List.cons_append, Sparse]
    cases s with
    | nil =>
      rw [List.getLast?_singleton, ne_eq, Option.some.injEq] at hlast
      rw [if_neg hlast]
      exact ht
    | cons v s =>
      rw [List.getLast?_cons_cons] at hlast
      split_ifs at hs ⊢ with hu
      · exact ⟨hs.1, ih hs.2 (List.cons_ne_nil v s) hlast⟩
      · exact ih hs (List.cons_ne_nil v s) hlast

theorem not_sparse (hn : n ≤ 2) (s t : List α) : ¬Sparse sep n (s ++ sep :: sep :: sep :: t) := by
  induction s generalizing n with
  | nil =>
    intro h
    rw [List.nil_append, Sparse, if_pos rfl, Sparse, if_pos rfl, Sparse, if_pos rfl] at h
    omega
  | cons u s ih =>
    rw [List.cons_append, Sparse]
    split_ifs
    · exact fun h => ih (by omega) h.2
    · exact ih le_rfl

/-- A text with few separators in a row has no two empty rows next to each other, but for the end. -/
theorem Sparse.empty_rows (h : Sparse sep 0 s) : ∀ before after, s.splitOn sep = before ++ [] :: [] :: after →
    after = [] := by
  intro before after hsplit
  by_contra hne
  have hs : s = [sep].intercalate (before ++ [] :: [] :: after) := by
    rw [← hsplit, List.intercalate_splitOn]
  have hrest : [sep].intercalate ([] :: [] :: after) = sep :: sep :: [sep].intercalate after := by
    rw [intercalate_cons_of_ne_nil _ (List.cons_ne_nil _ _), intercalate_cons_of_ne_nil _ hne]
    rfl
  by_cases hbefore : before = []
  · rw [hs, hbefore, List.nil_append, hrest, Sparse, if_pos rfl] at h
    exact absurd h.1 (lt_irrefl 0)
  · rw [hs, intercalate_append_of_ne_nil hbefore (List.cons_ne_nil _ _), hrest] at h
    exact not_sparse (Nat.zero_le 2) _ _ h

end Rows
