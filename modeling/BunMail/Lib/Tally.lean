import Mathlib
import BunMail.Lib.Table

/-!
# Tables of counters

A row counts the items of one kind.  Up to order, a table of counters holds one item for each time a
counter was created or incremented, so the sum of the counters of some kinds is the number of their
items.
-/

universe u v w

namespace Tally

variable {ρ : Type u} {γ : Type w} (count : ρ → ℕ) (kind : ρ → γ)

/-- The sum of the counters that meet `p`. -/
def total (p : ρ → Bool) (rows : List ρ) : ℕ := ((rows.filter p).map count).sum

/-- What the rows count, item by item. -/
def tallied (rows : List ρ) : List γ := rows.flatMap fun r => List.replicate (count r) (kind r)

variable {count kind}

theorem total_cons (p : ρ → Bool) (r : ρ) (rows : List ρ) :
    total count p (r :: rows) = (if p r then count r else 0) + total count p rows := by
  unfold total
  by_cases hp : p r
  · rw [List.filter_cons_of_pos hp, List.map_cons, List.sum_cons, if_pos hp]
  · rw [List.filter_cons_of_neg hp, if_neg hp, Nat.zero_add]

/-- **The counters of some kinds sum up to the number of their items.** -/
theorem total_kind (q : γ → Bool) (rows : List ρ) :
    total count (fun r => q (kind r)) rows = (tallied count kind rows).countP q := by
  induction rows with
  | nil => rfl
  | cons r rows ih =>
    have hsplit : tallied count kind (r :: rows) =
        List.replicate (count r) (kind r) ++ tallied count kind rows := rfl
    rw [total_cons, ih, hsplit, List.countP_append, List.countP_replicate]

theorem total_add_total {p q : ρ → Bool} {rows : List ρ} (h : ∀ r, q r = !p r) :
    total count p rows + total count q rows = (rows.map count).sum := by
  induction rows with
  | nil => rfl
  | cons r rows ih =>
    rw [total_cons, total_cons, List.map_cons, List.sum_cons, ← ih, h]
    cases p r <;> simp <;> omega

theorem total_filter (p q : ρ → Bool) (rows : List ρ) :
    total count p (rows.filter q) = total count (fun r => p r && q r) rows := by
  unfold total
  rw [List.filter_filter]

theorem total_map {σ : Type v} (f : ρ → σ) {number : σ → ℕ} (h : ∀ r, number (f r) = count r) (p : σ → Bool)
    (rows : List ρ) : total number p (rows.map f) = total count (fun r => p (f r)) rows := by
  unfold total
  rw [List.filter_map, List.map_map]
  exact congrArg List.sum (List.map_congr_left fun r _ => h r)

theorem total_perm {p : ρ → Bool} {rows rows' : List ρ} (h : rows.Perm rows') :
    total count p rows = total count p rows' := ((h.filter p).map count).sum_eq

theorem tallied_perm {rows rows' : List ρ} (h : rows.Perm rows') :
    (tallied count kind rows).Perm (tallied count kind rows') := h.flatMap_right _

/-- A kind is counted when one of its rows is, and no row counts nothing. -/
theorem mem_tallied {rows : List ρ} (hpos : ∀ r ∈ rows, 0 < count r) {c : γ} :
    c ∈ tallied count kind rows ↔ ∃ r ∈ rows, kind r = c := by
  unfold tallied
  rw [List.mem_flatMap]
  constructor
  · rintro ⟨r, hr, hc⟩
    exact ⟨r, hr, (List.eq_of_mem_replicate hc).symm⟩
  · rintro ⟨r, hr, rfl⟩
    exact ⟨r, hr, List.mem_replicate.mpr ⟨(hpos r hr).ne', rfl⟩⟩

theorem total_pos {p : ρ → Bool} {rows : List ρ} (hpos : ∀ r ∈ rows, 0 < count r) :
    0 < total count p rows ↔ ∃ r ∈ rows, p r = true := by
  have hitems : total count p rows = (tallied count id rows).countP p := total_kind p rows
  rw [hitems, List.countP_pos_iff]
  constructor
  · rintro ⟨r, hr, hp⟩
    obtain ⟨r, hmem, rfl⟩ := (mem_tallied hpos).mp hr
    exact ⟨r, hmem, hp⟩
  · rintro ⟨r, hr, hp⟩
    exact ⟨r, (mem_tallied hpos).mpr ⟨r, hr, rfl⟩, hp⟩

section Increment

variable {κ : Type v} [DecidableEq κ] {key : ρ → κ} {t : Table key} {row : ρ} {update : ρ → ρ}
  {hu : ∀ r, key r = key row → key (update r) = key r}

/-- **An increment counts one more item**: of the row with the key of the new one, or of a new row. -/
theorem tallied_upsert (hrow : count row = 1) (hcount : ∀ r, count (update r) = count r + 1)
    (hkind : ∀ r, kind (update r) = kind r) (hkey : ∀ r, key r = key row → kind r = kind row) :
    (tallied count kind (t.upsert row update hu).rows).Perm (tallied count kind t.rows ++ [kind row]) := by
  unfold tallied
  cases h : t.find? (key row) with
  | none =>
    rw [Table.flatMap_upsert_none h, hrow]
    rfl
  | some r =>
    -- the row's own items stand on both sides
    have hperm : ((t.upsert row update hu).rows.flatMap (fun r => List.replicate (count r) (kind r)) ++
          List.replicate (count r) (kind r)).Perm
        (t.rows.flatMap (fun r => List.replicate (count r) (kind r)) ++
          List.replicate (count (update r)) (kind (update r))) := Table.perm_flatMap_upsert_some h
    have hr : kind r = kind row := hkey r (Table.find?_eq_some_iff.mp h).2
    rw [hcount, hkind, hr, List.replicate_succ', ← List.append_assoc] at hperm
    have hswap : (t.rows.flatMap (fun r => List.replicate (count r) (kind r)) ++
          List.replicate (count r) (kind row) ++ [kind row]).Perm
        (t.rows.flatMap (fun r => List.replicate (count r) (kind r)) ++ [kind row] ++
          List.replicate (count r) (kind row)) := by
      rw [List.append_assoc, List.append_assoc]
      exact List.Perm.append_left _ List.perm_append_comm
    exact (List.perm_append_right_iff _).mp (hperm.trans hswap)

end Increment

end Tally
