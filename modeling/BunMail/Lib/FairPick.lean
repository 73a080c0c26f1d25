import Mathlib.Data.List.Sort

/-!
# Picking fairly among keys

Rows are ranked within their key, and a pick takes the lowest ranks first: round-robin across keys.
The first `n` rows of a sorted list hold every row that comes strictly before one of them.  So a pick
holds the first rows of each key, and no key falls more than one row behind another unless it has no
more rows.
-/

namespace FairPick

section Sorted

variable {ρ : Type} (le : ρ → ρ → Prop) [DecidableRel le]

/-- `ORDER BY le LIMIT n`. -/
def first (n : ℕ) (rows : List ρ) : List ρ := (rows.insertionSort le).take n

variable {le} {n : ℕ} {rows : List ρ}

theorem mem_of_mem_first {r : ρ} (h : r ∈ first le n rows) : r ∈ rows :=
  (List.mem_insertionSort le).mp (List.mem_of_mem_take h)

theorem length_first : (first le n rows).length = min n rows.length := by
  unfold first
  rw [List.length_take, List.length_insertionSort]

theorem nodup_first (h : rows.Nodup) : (first le n rows).Nodup :=
  ((rows.perm_insertionSort le).nodup_iff.mpr h).sublist (List.take_sublist _ _)

theorem mem_first_of_length_le (h : rows.length ≤ n) {r : ρ} : r ∈ first le n rows ↔ r ∈ rows := by
  unfold first
  rw [List.take_of_length_le (by rwa [List.length_insertionSort]), List.mem_insertionSort]

variable [Std.Total le] [IsTrans ρ le]

/-- **The first rows are a lower set.** -/
theorem mem_first_of_before {r r' : ρ} (h : r ∈ first le n rows) (hr' : r' ∈ rows)
    (hbefore : ¬ le r r') : r' ∈ first le n rows := by
  have hsorted := List.pairwise_insertionSort le rows
  have hmem := (List.mem_insertionSort le).mpr hr'
  unfold first at h ⊢
  rw [← List.take_append_drop n (rows.insertionSort le)] at hsorted hmem
  rcases List.mem_append.mp hmem with hmem | hmem
  · exact hmem
  · exact absurd ((List.pairwise_append.mp hsorted).2.2 r h r' hmem) hbefore

/-- A row that is left out comes after `n` others. -/
theorem not_before_of_notMem_first {r r' : ρ} (hr : r ∈ first le n rows) (hr' : r' ∈ rows)
    (hout : r' ∉ first le n rows) : le r r' := by
  by_contra hbefore
  exact hout (mem_first_of_before hr hr' hbefore)

omit [DecidableRel le] [IsTrans ρ le] in
/-- What comes strictly before in a sorted list has the lower index. -/
theorem idxOf_lt_of_before [DecidableEq ρ] {l : List ρ} (hl : l.Pairwise le) {r r' : ρ} (hr : r ∈ l)
    (hr' : r' ∈ l) (hbefore : ¬ le r r') : l.idxOf r' < l.idxOf r := by
  have hne : r ≠ r' := by
    rintro rfl
    exact hbefore ((Std.Total.total (r := le) r r).elim id id)
  induction l with
  | nil => exact absurd hr List.not_mem_nil
  | cons x l ih =>
    obtain ⟨hx, hl⟩ := List.pairwise_cons.mp hl
    by_cases h : r = x
    · subst h
      exact absurd (hx r' (List.mem_of_ne_of_mem hne.symm hr')) hbefore
    · rw [List.idxOf_cons_ne _ (Ne.symm h)]
      by_cases h' : r' = x
      · rw [h', List.idxOf_cons_self]
        exact Nat.succ_pos _
      · rw [List.idxOf_cons_ne _ (Ne.symm h')]
        exact Nat.succ_lt_succ (ih hl (List.mem_of_ne_of_mem h hr) (List.mem_of_ne_of_mem h' hr'))

end Sorted

section Ranks

variable {ρ κ : Type} [DecidableEq ρ] [DecidableEq κ] (le : ρ → ρ → Prop) [DecidableRel le]
  (key : ρ → κ)

/-- The rows of one key. -/
def ofKey (k : κ) (rows : List ρ) : List ρ := rows.filter fun r => key r = k

/-- The rows of one key, in order. -/
def line (rows : List ρ) (k : κ) : List ρ := (ofKey key k rows).insertionSort le

/-- `row_number() OVER (PARTITION BY key ORDER BY le)`. -/
def rank (rows : List ρ) (r : ρ) : ℕ := (line le key rows (key r)).idxOf r + 1

/-- `rank, le`. -/
def RoundLe (rows : List ρ) (a b : ρ) : Prop :=
  rank le key rows a < rank le key rows b ∨ rank le key rows a = rank le key rows b ∧ le a b

instance (rows : List ρ) : DecidableRel (RoundLe le key rows) := fun a b =>
  inferInstanceAs (Decidable (_ ∨ _ ∧ le a b))

/-- `ORDER BY rank, le LIMIT n`. -/
def pick (n : ℕ) (rows : List ρ) : List ρ := first (RoundLe le key rows) n rows

variable {le key} {n : ℕ} {rows : List ρ}

omit [DecidableEq ρ] in
theorem mem_ofKey {k : κ} {r : ρ} : r ∈ ofKey key k rows ↔ r ∈ rows ∧ key r = k := by
  unfold ofKey
  rw [List.mem_filter, decide_eq_true_iff]

omit [DecidableEq ρ] in
theorem mem_line {k : κ} {r : ρ} : r ∈ line le key rows k ↔ r ∈ rows ∧ key r = k := by
  unfold line
  rw [List.mem_insertionSort, mem_ofKey]

omit [DecidableEq ρ] in
theorem length_line {k : κ} : (line le key rows k).length = (ofKey key k rows).length :=
  List.length_insertionSort _ _

omit [DecidableEq ρ] in
theorem nodup_line (h : rows.Nodup) (k : κ) : (line le key rows k).Nodup :=
  ((ofKey key k rows).perm_insertionSort le).nodup_iff.mpr (h.filter _)

variable [Std.Total le] [IsTrans ρ le]

instance : Std.Total (RoundLe le key rows) where
  total a b := by
    unfold RoundLe
    rcases lt_trichotomy (rank le key rows a) (rank le key rows b) with h | h | h
    · exact .inl (.inl h)
    · exact (Std.Total.total (r := le) a b).imp (fun hle => .inr ⟨h, hle⟩) fun hle =>
        .inr ⟨h.symm, hle⟩
    · exact .inr (.inl h)

instance : IsTrans ρ (RoundLe le key rows) where
  trans a b c := by
    unfold RoundLe
    rintro (hab | ⟨hab, hle⟩) (hbc | ⟨hbc, hle'⟩)
    · exact .inl (hab.trans hbc)
    · exact .inl (hbc ▸ hab)
    · exact .inl (hab ▸ hbc)
    · exact .inr ⟨hab.trans hbc, IsTrans.trans _ _ _ hle hle'⟩

/-- A row that comes strictly before another of its key has a lower rank. -/
theorem rank_lt_of_before {r r' : ρ} (hr : r ∈ rows) (hr' : r' ∈ rows) (hkey : key r' = key r)
    (hbefore : ¬ le r r') : rank le key rows r' < rank le key rows r := by
  unfold rank
  rw [hkey]
  exact Nat.succ_lt_succ (idxOf_lt_of_before (List.pairwise_insertionSort le _)
    (mem_line.mpr ⟨hr, rfl⟩) (mem_line.mpr ⟨hr', hkey⟩) hbefore)

/-- **A pick holds the first rows of a key.** -/
theorem mem_pick_of_before {r r' : ρ} (h : r ∈ pick le key n rows) (hr' : r' ∈ rows)
    (hkey : key r' = key r) (hbefore : ¬ le r r') : r' ∈ pick le key n rows := by
  have hrank := rank_lt_of_before (mem_of_mem_first h) hr' hkey hbefore
  refine mem_first_of_before h hr' ?_
  rintro (hlt | ⟨heq, _⟩)
  · exact absurd hlt hrank.not_gt
  · exact absurd heq hrank.ne'

omit [Std.Total le] [IsTrans ρ le] in
/-- The rows of a key up to a rank. -/
theorem mem_take_line {k : ℕ} {r : ρ} (hr : r ∈ rows) :
    r ∈ (line le key rows (key r)).take k ↔ rank le key rows r ≤ k := by
  rw [List.mem_take_iff_idxOf_lt (mem_line.mpr ⟨hr, rfl⟩)]
  exact Nat.lt_iff_add_one_le

/-- **Fair shares.** When a key has more than `k` rows in the pick, every other key has `k`, or all it
has. -/
theorem le_length_pick (hn : rows.Nodup) {a b : κ} {k : ℕ}
    (ha : k + 1 ≤ (ofKey key a (pick le key n rows)).length) :
    min k (ofKey key b rows).length ≤ (ofKey key b (pick le key n rows)).length := by
  obtain ⟨r, hr, hrank⟩ : ∃ r ∈ pick le key n rows, k < rank le key rows r := by
    by_contra hall
    push Not at hall
    have hsub : ofKey key a (pick le key n rows) ⊆ (line le key rows a).take k := by
      intro r hr
      obtain ⟨hmem, rfl⟩ := mem_ofKey.mp hr
      exact (mem_take_line (mem_of_mem_first hmem)).mpr (hall r hmem)
    have hle := (List.subperm_of_subset ((nodup_first hn).filter _) hsub).length_le
    have htake := List.length_take_le k (line le key rows a)
    unfold ofKey pick at ha
    omega
  have hsub : (line le key rows b).take k ⊆ ofKey key b (pick le key n rows) := by
    intro r' hr'
    obtain ⟨hmem, rfl⟩ := mem_line.mp (List.mem_of_mem_take hr')
    have hrank' := (mem_take_line hmem).mp hr'
    refine mem_ofKey.mpr ⟨mem_first_of_before hr hmem ?_, rfl⟩
    rintro (hlt | ⟨heq, _⟩) <;> omega
  have hnodup : ((line le key rows b).take k).Nodup :=
    (nodup_line hn b).sublist (List.take_sublist k _)
  have hle := (List.subperm_of_subset hnodup hsub).length_le
  rwa [List.length_take, length_line] at hle

end Ranks

end FairPick
