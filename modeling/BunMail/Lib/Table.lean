import Mathlib.Data.List.Induction
import Mathlib.Data.List.Nodup
import Mathlib.Data.List.Perm.Basic
import Mathlib.Data.List.Sort

/-!
# Tables with a unique key

A table is a list of rows in insertion order whose key column has no duplicates.  `upsert` is
`INSERT ... ON CONFLICT (key) DO UPDATE`: it rewrites the row that holds the key, or appends the
new row.  A record (an insertion-ordered map) is the table of its key/value pairs.
-/

universe u v

/-- Rows in insertion order, at most one for each key. -/
structure Table {ρ : Type u} {κ : Type v} (key : ρ → κ) where
  rows : List ρ
  unique : (rows.map key).Nodup

namespace Table

variable {ρ : Type u} {κ : Type v} {key : ρ → κ}

theorem ext_rows {a b : Table key} (h : a.rows = b.rows) : a = b := by
  cases a; cases b; cases h; rfl

instance [DecidableEq ρ] : DecidableEq (Table key) := fun a b =>
  decidable_of_iff (a.rows = b.rows) ⟨ext_rows, fun h => h ▸ rfl⟩

/-- The table with no row. -/
def empty : Table key := ⟨[], List.nodup_nil⟩

/-- The keys, in insertion order. -/
def keys (t : Table key) : List κ := t.rows.map key

@[simp] theorem keys_empty : (empty : Table key).keys = [] := rfl

variable [DecidableEq κ]

/-- The row that holds `k`. -/
def find? (t : Table key) (k : κ) : Option ρ := t.rows.find? fun r => key r = k

/-! ## Lookups -/

theorem key_of_find? {t : Table key} {k : κ} {r : ρ} (h : t.find? k = some r) : key r = k := by
  simpa using List.find?_some h

theorem mem_of_find? {t : Table key} {k : κ} {r : ρ} (h : t.find? k = some r) : r ∈ t.rows :=
  List.mem_of_find?_eq_some h

theorem find?_of_mem {t : Table key} {r : ρ} (h : r ∈ t.rows) : t.find? (key r) = some r := by
  unfold find?
  cases hf : t.rows.find? (fun r' => key r' = key r) with
  | none =>
    have := List.find?_eq_none.mp hf r h
    simp at this
  | some r' =>
    have hk : key r' = key r := by simpa using List.find?_some hf
    rw [List.inj_on_of_nodup_map t.unique (List.mem_of_find?_eq_some hf) h hk]

theorem find?_eq_some_iff {t : Table key} {k : κ} {r : ρ} :
    t.find? k = some r ↔ r ∈ t.rows ∧ key r = k :=
  ⟨fun h => ⟨mem_of_find? h, key_of_find? h⟩, fun ⟨hm, hk⟩ => hk ▸ find?_of_mem hm⟩

theorem find?_eq_none_iff {t : Table key} {k : κ} : t.find? k = none ↔ k ∉ t.keys := by
  simp [find?, keys]

theorem mem_keys_of_find? {t : Table key} {k : κ} {r : ρ} (h : t.find? k = some r) :
    k ∈ t.keys :=
  List.mem_map.mpr ⟨r, mem_of_find? h, key_of_find? h⟩

@[simp] theorem find?_empty (k : κ) : (empty : Table key).find? k = none := rfl

/-! ## Upserts -/

/-- The rows after `INSERT row ON CONFLICT (key) DO UPDATE`, the conflicting row becoming
`update` of itself. -/
def upsertRows (key : ρ → κ) (row : ρ) (update : ρ → ρ) (l : List ρ) : List ρ :=
  if key row ∈ l.map key then l.map fun r => if key r = key row then update r else r
  else l ++ [row]

theorem map_update {k : κ} {update : ρ → ρ} (hu : ∀ r, key r = k → key (update r) = key r)
    (l : List ρ) : (l.map fun r => if key r = k then update r else r).map key = l.map key := by
  rw [List.map_map]
  refine List.map_congr_left fun r _ => ?_
  by_cases h : key r = k
  · simp [h, hu r h]
  · simp [h]

theorem upsertRows_unique {row : ρ} {update : ρ → ρ}
    (hu : ∀ r, key r = key row → key (update r) = key r) {l : List ρ} (h : (l.map key).Nodup) :
    ((upsertRows key row update l).map key).Nodup := by
  unfold upsertRows
  split_ifs with hm
  · rwa [map_update hu]
  · rw [List.map_append, List.nodup_append]
    refine ⟨h, List.nodup_singleton _, fun a ha b hb => ?_⟩
    rw [List.map_singleton, List.mem_singleton] at hb
    rintro rfl
    exact hm (hb ▸ ha)

/-- `INSERT row ON CONFLICT (key) DO UPDATE`; `update` leaves the key column alone. -/
def upsert (t : Table key) (row : ρ) (update : ρ → ρ)
    (hu : ∀ r, key r = key row → key (update r) = key r) : Table key :=
  ⟨upsertRows key row update t.rows, upsertRows_unique hu t.unique⟩

section Upsert

@[simp] theorem upsert_rows (t : Table key) (row : ρ) (update : ρ → ρ)
    (hu : ∀ r, key r = key row → key (update r) = key r) :
    (t.upsert row update hu).rows = upsertRows key row update t.rows := rfl

theorem upsertRows_of_mem {row : ρ} {update : ρ → ρ} {l : List ρ} (h : key row ∈ l.map key) :
    upsertRows key row update l = l.map fun r => if key r = key row then update r else r :=
  if_pos h

theorem upsertRows_of_notMem {row : ρ} {update : ρ → ρ} {l : List ρ} (h : key row ∉ l.map key) :
    upsertRows key row update l = l ++ [row] := if_neg h

variable {t : Table key} {row : ρ} {update : ρ → ρ}
  (hu : ∀ r, key r = key row → key (update r) = key r)

theorem find?_upsert_self :
    (t.upsert row update hu).find? (key row) = some ((t.find? (key row)).elim row update) := by
  cases hf : t.find? (key row) with
  | none =>
    have hk := find?_eq_none_iff.mp hf
    rw [find?_eq_some_iff]
    rw [upsert_rows, upsertRows_of_notMem hk]
    exact ⟨List.mem_append_right _ (List.mem_singleton_self _), rfl⟩
  | some r =>
    have hk := mem_keys_of_find? hf
    obtain ⟨hm, hr⟩ := find?_eq_some_iff.mp hf
    rw [find?_eq_some_iff]
    refine ⟨?_, (hu r hr).trans hr⟩
    rw [upsert_rows, upsertRows_of_mem hk]
    exact List.mem_map.mpr ⟨r, hm, if_pos hr⟩

/-- The row that is put in the place of another is found. -/
theorem find?_replace (t : Table key) (row : ρ) (hu : ∀ r, key r = key row → key row = key r) :
    (t.upsert row (fun _ => row) hu).find? (key row) = some row := by
  rw [find?_upsert_self]
  cases t.find? (key row) <;> rfl

theorem find?_upsert_ne {k : κ} (h : k ≠ key row) :
    (t.upsert row update hu).find? k = t.find? k := by
  unfold find?
  rw [upsert_rows]
  by_cases hm : key row ∈ t.rows.map key
  · rw [upsertRows_of_mem hm, List.find?_map]
    have hp : ((fun r => decide (key r = k)) ∘ fun r => if key r = key row then update r else r) =
        fun r => decide (key r = k) := by
      funext r
      by_cases hr : key r = key row
      · have := hu r hr
        simp [hr, this, h.symm]
      · simp [hr]
    rw [hp]
    cases hf : t.rows.find? (fun r => decide (key r = k)) with
    | none => rfl
    | some r =>
      have hk : key r = k := by simpa using List.find?_some hf
      simp [hk, h]
  · rw [upsertRows_of_notMem hm]
    simp [List.find?_append, h.symm]

/-- A row of the table after an upsert is a row from before under another key, or the row that
holds the upserted key. -/
theorem mem_upsert {r : ρ} (h : r ∈ (t.upsert row update hu).rows) :
    (r ∈ t.rows ∧ key r ≠ key row) ∨
      (key r = key row ∧ (r = row ∨ ∃ r₀ ∈ t.rows, key r₀ = key row ∧ r = update r₀)) := by
  by_cases hk : key r = key row
  · right
    have hf := find?_of_mem h
    rw [hk, find?_upsert_self] at hf
    refine ⟨hk, ?_⟩
    cases h₀ : t.find? (key row) with
    | none => rw [h₀] at hf; exact .inl (Option.some.inj hf).symm
    | some r₀ =>
      rw [h₀] at hf
      obtain ⟨hm, hr⟩ := find?_eq_some_iff.mp h₀
      exact .inr ⟨r₀, hm, hr, (Option.some.inj hf).symm⟩
  · have hf := find?_of_mem h
    rw [find?_upsert_ne hu hk] at hf
    exact .inl ⟨mem_of_find? hf, hk⟩

end Upsert

omit [DecidableEq κ] in
theorem key_guarded {k : κ} {set : ρ → ρ} {setWhere : ρ → Bool}
    (hs : ∀ r, key r = k → key (set r) = key r) (r : ρ) (hr : key r = k) :
    key (if setWhere r then set r else r) = key r := by
  split_ifs
  · exact hs r hr
  · rfl

/-- `INSERT row ON CONFLICT (key) DO UPDATE SET ... WHERE ... RETURNING *`: the row comes back
when it was inserted or rewritten, not when `setWhere` left the conflicting row in place. -/
def upsertWhere (t : Table key) (row : ρ) (set : ρ → ρ) (setWhere : ρ → Bool)
    (hs : ∀ r, key r = key row → key (set r) = key r) : Table key × Option ρ :=
  (t.upsert row (fun r => if setWhere r then set r else r) (key_guarded hs),
    match t.find? (key row) with
    | none => some row
    | some r => if setWhere r then some (set r) else none)

section UpsertWhere

variable {t : Table key} {row : ρ} {set : ρ → ρ} {setWhere : ρ → Bool}
  {hs : ∀ r, key r = key row → key (set r) = key r}

theorem find?_upsertWhere_self :
    (t.upsertWhere row set setWhere hs).1.find? (key row) =
      some ((t.find? (key row)).elim row fun r => if setWhere r then set r else r) := find?_upsert_self (key_guarded hs)

theorem find?_upsertWhere_ne {k : κ} (h : k ≠ key row) :
    (t.upsertWhere row set setWhere hs).1.find? k = t.find? k := find?_upsert_ne (key_guarded hs) h

end UpsertWhere

/-- `INSERT` of a row with a new key. -/
def insert (t : Table key) (row : ρ) : Table key := t.upsert row (fun old => old) fun _ _ => rfl

/-! ## Updates and deletes -/

/-- `UPDATE` of every row; `f` leaves the key column alone. -/
def updateAll (t : Table key) (f : ρ → ρ) (hf : ∀ r, key (f r) = key r) : Table key :=
  ⟨t.rows.map f, by
    have : (t.rows.map f).map key = t.rows.map key := by
      rw [List.map_map]; exact List.map_congr_left fun r _ => hf r
    rw [this]; exact t.unique⟩

/-- `DELETE` of the rows `p` selects. -/
def deleteWhere (t : Table key) (p : ρ → Bool) : Table key :=
  ⟨t.rows.filter fun r => !p r, (List.filter_sublist.map key).nodup t.unique⟩

theorem find?_updateAll {t : Table key} {f : ρ → ρ} {hf : ∀ r, key (f r) = key r} (k : κ) :
    (t.updateAll f hf).find? k = (t.find? k).map f := by
  unfold find? updateAll
  rw [List.find?_map]
  congr 2
  funext r
  simp [hf]

theorem find?_deleteWhere {t : Table key} {p : ρ → Bool} (k : κ) :
    (t.deleteWhere p).find? k = (t.find? k).filter fun r => !p r := by
  cases hf : t.find? k with
  | none =>
    rw [find?_eq_none_iff] at hf
    rw [Option.filter_none, find?_eq_none_iff]
    exact fun h => hf ((List.filter_sublist.map key).subset h)
  | some r =>
    obtain ⟨hm, hk⟩ := find?_eq_some_iff.mp hf
    by_cases hp : p r
    · rw [Option.filter_some, if_neg (by simp [hp]), find?_eq_none_iff]
      intro hmem
      obtain ⟨r', hr', hk'⟩ := List.mem_map.mp hmem
      obtain ⟨hr', hp'⟩ := List.mem_filter.mp hr'
      rw [List.inj_on_of_nodup_map t.unique hr' hm (hk'.trans hk.symm)] at hp'
      simp [hp] at hp'
    · rw [Option.filter_some, if_pos (by simp [hp]), find?_eq_some_iff]
      exact ⟨List.mem_filter.mpr ⟨hm, by simp [hp]⟩, hk⟩

omit [DecidableEq κ] in
theorem keys_updateAll (t : Table key) (f : ρ → ρ) (hf : ∀ r, key (f r) = key r) :
    (t.updateAll f hf).keys = t.keys := by
  unfold keys updateAll
  rw [List.map_map]
  exact List.map_congr_left fun r _ => hf r

omit [DecidableEq κ] in
theorem mem_deleteWhere {t : Table key} {p : ρ → Bool} {r : ρ} :
    r ∈ (t.deleteWhere p).rows ↔ r ∈ t.rows ∧ p r = false := by
  simp [deleteWhere, List.mem_filter]

omit [DecidableEq κ] in
/-- Two rows with one key are one row. -/
theorem eq_of_key_eq {t : Table key} {r r' : ρ} (hr : r ∈ t.rows) (hr' : r' ∈ t.rows)
    (h : key r = key r') : r = r' := List.inj_on_of_nodup_map t.unique hr hr' h

theorem mem_keys_upsert {t : Table key} {row : ρ} {update : ρ → ρ}
    {hu : ∀ r, key r = key row → key (update r) = key r} {k : κ} :
    k ∈ (t.upsert row update hu).keys ↔ k = key row ∨ k ∈ t.keys := by
  by_cases hk : k = key row
  · subst hk
    exact iff_of_true (mem_keys_of_find? (find?_upsert_self hu)) (.inl rfl)
  · rw [or_iff_right hk, ← not_iff_not, ← find?_eq_none_iff, ← find?_eq_none_iff,
      find?_upsert_ne hu hk]

theorem mem_keys_insert {t : Table key} {row : ρ} {k : κ} :
    k ∈ (t.insert row).keys ↔ k = key row ∨ k ∈ t.keys := mem_keys_upsert

theorem insert_rows {t : Table key} {row : ρ} (h : key row ∉ t.keys) :
    (t.insert row).rows = t.rows ++ [row] := upsertRows_of_notMem h

theorem mem_keys_foldl_upsert {rows : List ρ} {t : Table key} {k : κ} :
    k ∈ (rows.foldl (fun t r => t.upsert r (fun old => old) fun _ _ => rfl) t).keys ↔
      k ∈ rows.map key ∨ k ∈ t.keys := by
  induction rows generalizing t with
  | nil => simp
  | cons r rows ih =>
    rw [List.foldl_cons, ih, mem_keys_upsert, List.map_cons, List.mem_cons]
    tauto

/-- A key of the table is that of exactly one row. -/
theorem length_filter_key {t : Table key} {k : κ} :
    (t.rows.filter fun r => key r = k).length = 1 ↔ k ∈ t.keys := by
  have hc : (t.rows.filter fun r => key r = k).length = t.keys.count k := by
    unfold keys
    rw [List.count, List.countP_map, List.countP_eq_length_filter]
    rfl
  rw [hc]
  constructor
  · intro h
    exact List.count_pos_iff.mp (by omega)
  · exact fun h => List.count_eq_one_of_mem t.unique h

/-- The same rows in another order. -/
def sort (t : Table key) (r : ρ → ρ → Prop) [DecidableRel r] : Table key :=
  ⟨t.rows.insertionSort r, ((t.rows.perm_insertionSort r).map key).nodup_iff.mpr t.unique⟩

omit [DecidableEq κ] in
theorem perm_sort (t : Table key) (r : ρ → ρ → Prop) [DecidableRel r] :
    (t.sort r).rows.Perm t.rows := t.rows.perm_insertionSort r

omit [DecidableEq κ] in
theorem pairwise_sort (t : Table key) (r : ρ → ρ → Prop) [DecidableRel r] [Std.Total r]
    [IsTrans ρ r] : (t.sort r).rows.Pairwise r := List.pairwise_insertionSort r t.rows

theorem find?_sort (t : Table key) (r : ρ → ρ → Prop) [DecidableRel r] (k : κ) :
    (t.sort r).find? k = t.find? k := by
  ext a
  rw [find?_eq_some_iff, find?_eq_some_iff, (t.perm_sort r).mem_iff]

/-! ## Items of the rows

`f` gives the items a row holds.  Up to order, an upsert adds what the new value of its row adds.
-/

section Items

variable {α : Type*} (f : ρ → List α)

theorem flatMap_upsertRows_of_notMem {row : ρ} {update : ρ → ρ} {l : List ρ}
    (h : key row ∉ l.map key) :
    (upsertRows key row update l).flatMap f = l.flatMap f ++ f row := by
  rw [upsertRows_of_notMem h, List.flatMap_append, List.flatMap_singleton]

/-- The rewrite of the row `r` trades its items for those of the rewritten row. -/
theorem perm_flatMap_update {k : κ} {update : ρ → ρ} {l : List ρ} {r : ρ}
    (hn : (l.map key).Nodup) (hr : r ∈ l) (hk : key r = k) :
    ((l.map fun r => if key r = k then update r else r).flatMap f ++ f r).Perm
      (l.flatMap f ++ f (update r)) := by
  induction l with
  | nil => cases hr
  | cons a l ih =>
    rw [List.map_cons, List.nodup_cons] at hn
    rw [List.map_cons, List.flatMap_cons, List.flatMap_cons]
    rcases List.mem_cons.mp hr with rfl | hr
    · -- the head is the row, and no other row holds its key
      have htail : (l.map fun r => if key r = k then update r else r) = l := by
        conv_rhs => rw [← List.map_id l]
        refine List.map_congr_left fun a ha => ?_
        have : key a ≠ k := fun h => hn.1 (List.mem_map.mpr ⟨a, ha, h.trans hk.symm⟩)
        simp [this]
      rw [htail, if_pos hk, List.append_assoc, List.append_assoc]
      have hswap : (f (update r) ++ (f r ++ l.flatMap f)).Perm
          (f r ++ (l.flatMap f ++ f (update r))) := by
        rw [← List.append_assoc (f r)]
        exact List.perm_append_comm
      exact (List.perm_append_comm.append_left _).trans hswap
    · have ha : key a ≠ k := fun h =>
        hn.1 (List.mem_map.mpr ⟨r, hr, hk.trans h.symm⟩)
      rw [if_neg ha, List.append_assoc, List.append_assoc]
      exact List.Perm.append_left _ (ih hn.2 hr)

variable {f} {t : Table key} {row : ρ} {update : ρ → ρ}
  {hu : ∀ r, key r = key row → key (update r) = key r}

theorem perm_flatMap_upsert_some {r : ρ} (h : t.find? (key row) = some r) :
    ((t.upsert row update hu).rows.flatMap f ++ f r).Perm (t.rows.flatMap f ++ f (update r)) := by
  obtain ⟨hm, hk⟩ := find?_eq_some_iff.mp h
  rw [upsert_rows, upsertRows_of_mem (mem_keys_of_find? h)]
  exact perm_flatMap_update f t.unique hm hk

theorem flatMap_upsert_none (h : t.find? (key row) = none) :
    (t.upsert row update hu).rows.flatMap f = t.rows.flatMap f ++ f row :=
  flatMap_upsertRows_of_notMem f (find?_eq_none_iff.mp h)

/-- An update that adds the items of the new row. -/
theorem perm_flatMap_upsert (hf : ∀ r, f (update r) = f r ++ f row) :
    ((t.upsert row update hu).rows.flatMap f).Perm (t.rows.flatMap f ++ f row) := by
  cases h : t.find? (key row) with
  | none => rw [flatMap_upsert_none h]
  | some r =>
    have hp : ((t.upsert row update hu).rows.flatMap f ++ f r).Perm _ :=
      perm_flatMap_upsert_some h
    rw [hf, ← List.append_assoc] at hp
    have hc : (t.rows.flatMap f ++ f r ++ f row).Perm (t.rows.flatMap f ++ f row ++ f r) := by
      rw [List.append_assoc, List.append_assoc]
      exact List.Perm.append_left _ List.perm_append_comm
    exact (List.perm_append_right_iff _).mp (hp.trans hc)

end Items

/-! ## Records

A record is the table of its entries.
-/

section Record

variable {β : Type*}

/-- `t[k]`. -/
def get? (t : Table (Prod.fst : κ × β → κ)) (k : κ) : Option β := (t.find? k).map Prod.snd

/-- `t[k] = v`: the entry keeps its place, or is added at the end. -/
def put (t : Table (Prod.fst : κ × β → κ)) (k : κ) (v : β) : Table (Prod.fst : κ × β → κ) :=
  t.upsert (k, v) (fun _ => (k, v)) fun _ h => h.symm

/-- The record the assignments build, one after the other: a later one replaces an earlier one
of its key. -/
def ofEntries (entries : List (κ × β)) : Table (Prod.fst : κ × β → κ) :=
  entries.foldl (fun t e => t.put e.1 e.2) empty

/-- Every value rewritten, in place. -/
def mapValues (t : Table (Prod.fst : κ × β → κ)) (f : κ → β → β) : Table (Prod.fst : κ × β → κ) :=
  t.updateAll (fun e => (e.1, f e.1 e.2)) fun _ => rfl

variable {t : Table (Prod.fst : κ × β → κ)} {k k' : κ} {v v' : β}

theorem get?_mapValues (f : κ → β → β) (k : κ) : (t.mapValues f).get? k = (t.get? k).map (f k) := by
  unfold get? mapValues
  rw [find?_updateAll]
  cases h : t.find? k with
  | none => rfl
  | some e => rw [Option.map_some, Option.map_some, Option.map_some, Option.map_some, key_of_find? h]

omit [DecidableEq κ] in
theorem keys_mapValues {f : κ → β → β} : (t.mapValues f).keys = t.keys := List.map_map

theorem find?_eq_of_get? (h : t.get? k = some v) : t.find? k = some (k, v) := by
  obtain ⟨e, he, rfl⟩ := Option.map_eq_some_iff.mp h
  rw [he, ← key_of_find? he]

theorem get?_eq_some_iff : t.get? k = some v ↔ (k, v) ∈ t.rows := by
  constructor
  · intro h
    exact mem_of_find? (find?_eq_of_get? h)
  · intro h
    rw [get?, show t.find? k = some (k, v) from find?_of_mem h, Option.map_some]

theorem get?_eq_none_iff : t.get? k = none ↔ k ∉ t.keys := by
  rw [get?, Option.map_eq_none_iff, find?_eq_none_iff]

theorem get?_isSome_iff : (t.get? k).isSome ↔ k ∈ t.keys := by
  rw [← not_iff_not, Option.not_isSome_iff_eq_none, get?_eq_none_iff]

@[simp] theorem get?_put_self : (t.put k v).get? k = some v := by
  have h : (t.put k v).find? k = some ((t.find? k).elim (k, v) fun _ => (k, v)) :=
    find?_upsert_self _
  rw [get?, h]
  cases t.find? k <;> rfl

theorem get?_put_ne (h : k' ≠ k) : (t.put k v).get? k' = t.get? k' := by
  rw [get?, put, find?_upsert_ne _ h]
  rfl

theorem get?_put : (t.put k v).get? k' = if k' = k then some v else t.get? k' := by
  split_ifs with h
  · rw [h, get?_put_self]
  · exact get?_put_ne h

theorem get?_deleteWhere (p : κ × β → Bool) :
    (t.deleteWhere p).get? k = (t.get? k).filter fun v => !p (k, v) := by
  rw [get?, get?, find?_deleteWhere]
  cases hf : t.find? k with
  | none => rfl
  | some e =>
    obtain ⟨k', v⟩ := e
    have hk : k' = k := key_of_find? hf
    subst hk
    rw [Option.map_some, Option.filter_some, Option.filter_some]
    split_ifs <;> rfl

theorem put_rows_of_notMem (h : k ∉ t.keys) : (t.put k v).rows = t.rows ++ [(k, v)] :=
  upsertRows_of_notMem h

theorem keys_put_of_notMem (h : k ∉ t.keys) : (t.put k v).keys = t.keys ++ [k] := by
  rw [keys, put_rows_of_notMem h, List.map_append]
  rfl

theorem keys_put_of_mem (h : k ∈ t.keys) : (t.put k v).keys = t.keys := by
  unfold keys put
  rw [upsert_rows, upsertRows_of_mem h]
  exact map_update (fun _ h => h.symm) t.rows

theorem mem_keys_put : k' ∈ (t.put k v).keys ↔ k' = k ∨ k' ∈ t.keys := by
  rw [← get?_isSome_iff, get?_put, ← get?_isSome_iff]
  split_ifs with h <;> simp [h]

theorem mem_rows_iff_get? {e : κ × β} : e ∈ t.rows ↔ t.get? e.1 = some e.2 := by
  constructor
  · intro h
    rw [get?, find?_of_mem h]
    rfl
  · intro h
    exact mem_of_find? (find?_eq_of_get? h)

/-- Records with the same values have the same entries, up to order. -/
theorem perm_of_get? {u : Table (Prod.fst : κ × β → κ)} (h : ∀ k, t.get? k = u.get? k) :
    t.rows.Perm u.rows := by
  refine (List.perm_ext_iff_of_nodup t.unique.of_map u.unique.of_map).mpr fun e => ?_
  rw [mem_rows_iff_get?, mem_rows_iff_get?, h]

/-- What is put under a key is counted in place of what was there. -/
theorem countP_put (p : β → Bool) :
    (t.put k v).rows.countP (fun e => p e.2) + (if (t.get? k).any p then 1 else 0) =
      t.rows.countP (fun e => p e.2) + if p v then 1 else 0 := by
  -- both records are one without the key, and an entry of the key
  have hadd : ∀ u : β, ((t.deleteWhere fun e => decide (e.1 = k)).put k u).rows.countP
      (fun e => p e.2) = (t.deleteWhere fun e => decide (e.1 = k)).rows.countP (fun e => p e.2) +
        if p u then 1 else 0 := by
    intro u
    have hmem : k ∉ (t.deleteWhere fun e => decide (e.1 = k)).keys := by
      rw [← get?_eq_none_iff, get?_deleteWhere]
      cases t.get? k <;> simp [Option.filter_some]
    rw [put_rows_of_notMem hmem, List.countP_append, List.countP_singleton]
  have hnew : (t.put k v).rows.Perm
      ((t.deleteWhere fun e => decide (e.1 = k)).put k v).rows := by
    refine perm_of_get? fun k' => ?_
    rw [get?_put, get?_put, get?_deleteWhere]
    split_ifs with h
    · rfl
    · cases t.get? k' <;> simp [Option.filter_some, h]
  rw [hnew.countP_eq, hadd]
  cases hold : t.get? k with
  | none =>
    have hsame : t.rows.Perm (t.deleteWhere fun e => decide (e.1 = k)).rows := by
      refine perm_of_get? fun k' => ?_
      rw [get?_deleteWhere]
      by_cases h : k' = k
      · rw [h, hold]
        rfl
      · cases t.get? k' <;> simp [Option.filter_some, h]
    rw [hsame.countP_eq]
    rfl
  | some u =>
    have hsame : t.rows.Perm ((t.deleteWhere fun e => decide (e.1 = k)).put k u).rows := by
      refine perm_of_get? fun k' => ?_
      rw [get?_put, get?_deleteWhere]
      split_ifs with h
      · rw [h, hold]
      · cases t.get? k' <;> simp [Option.filter_some, h]
    rw [hsame.countP_eq, hadd, Option.any_some]
    omega


theorem ofEntries_concat (entries : List (κ × β)) (e : κ × β) :
    ofEntries (entries ++ [e]) = (ofEntries entries).put e.1 e.2 := List.foldl_append

/-- Assignments to distinct keys give back the list of entries. -/
theorem ofEntries_rows {entries : List (κ × β)} (h : (entries.map Prod.fst).Nodup) :
    (ofEntries entries).rows = entries := by
  induction entries using List.reverseRecOn with
  | nil => rfl
  | append_singleton entries e ih =>
    rw [List.map_append, List.nodup_append] at h
    have hrows := ih h.1
    have hk : e.1 ∉ (ofEntries entries).keys := by
      rw [keys, hrows]
      intro hm
      exact h.2.2 e.1 hm e.1 (List.mem_singleton_self _) rfl
    rw [ofEntries_concat, put_rows_of_notMem hk, hrows]

theorem mem_ofEntries {entries : List (κ × β)} {e : κ × β} (h : e ∈ (ofEntries entries).rows) :
    e ∈ entries := by
  induction entries using List.reverseRecOn with
  | nil => cases h
  | append_singleton entries x ih =>
    rw [ofEntries_concat] at h
    rcases mem_upsert _ h with ⟨h, _⟩ | ⟨_, rfl | ⟨_, _, _, rfl⟩⟩
    · exact List.mem_append_left _ (ih h)
    · exact List.mem_append_right _ (List.mem_singleton_self _)
    · exact List.mem_append_right _ (List.mem_singleton_self _)

/-- Assignments to other keys do not matter. -/
theorem get?_ofEntries_append {a b : List (κ × β)} (h : k ∉ b.map Prod.fst) :
    (ofEntries (a ++ b)).get? k = (ofEntries a).get? k := by
  induction b using List.reverseRecOn with
  | nil => rw [List.append_nil]
  | append_singleton b e ih =>
    rw [List.map_append, List.mem_append, not_or] at h
    rw [← List.append_assoc, ofEntries_concat, get?_put_ne, ih h.1]
    exact fun hk => h.2 (List.mem_singleton.mpr hk)

/-- The last assignment to a key gives its value. -/
theorem get?_ofEntries_last {a b : List (κ × β)} (h : k ∉ b.map Prod.fst) :
    (ofEntries (a ++ (k, v) :: b)).get? k = some v := by
  rw [List.append_cons, get?_ofEntries_append h, ofEntries_concat, get?_put_self]

/-- The items of the record are those assigned, less those assigned over. -/
theorem exists_perm_flatMap_ofEntries {α : Type*} (f : κ × β → List α) (entries : List (κ × β)) :
    ∃ gone, ((ofEntries entries).rows.flatMap f ++ gone).Perm (entries.flatMap f) := by
  induction entries using List.reverseRecOn with
  | nil => exact ⟨[], List.Perm.refl _⟩
  | append_singleton entries e ih =>
    obtain ⟨gone, hgone⟩ := ih
    rw [ofEntries_concat, List.flatMap_append, List.flatMap_singleton]
    -- what is there before the last assignment, with the new items
    have hall : ((ofEntries entries).rows.flatMap f ++ f e ++ gone).Perm
        (entries.flatMap f ++ f e) := by
      rw [List.append_assoc]
      refine (List.perm_append_comm.append_left _).trans ?_
      rw [← List.append_assoc]
      exact hgone.append_right _
    cases hfind : (ofEntries entries).find? e.1 with
    | none =>
      refine ⟨gone, ?_⟩
      have hput : ((ofEntries entries).put e.1 e.2).rows.flatMap f = _ :=
        flatMap_upsert_none (f := f) hfind
      rwa [hput]
    | some r =>
      have hput : (((ofEntries entries).put e.1 e.2).rows.flatMap f ++ f r).Perm _ :=
        perm_flatMap_upsert_some (f := f) hfind
      refine ⟨f r ++ gone, ?_⟩
      rw [← List.append_assoc]
      exact (hput.append_right gone).trans hall

end Record

/-! ## Grouping -/

section Group

variable {α : Type*} (k : α → κ)

/-- The items by key, keys and items in first-seen order. -/
def groupBy (l : List α) : Table (Prod.fst : κ × List α → κ) :=
  l.foldl (fun t a => t.upsert (k a, [a]) (fun b => (b.1, b.2 ++ [a])) fun _ _ => rfl) empty

theorem groupBy_concat (l : List α) (a : α) :
    groupBy k (l ++ [a]) =
      (groupBy k l).upsert (k a, [a]) (fun b => (b.1, b.2 ++ [a])) fun _ _ => rfl :=
  List.foldl_append

/-- Grouping keeps every item. -/
theorem perm_groupBy (l : List α) : ((groupBy k l).rows.flatMap Prod.snd).Perm l := by
  induction l using List.reverseRecOn with
  | nil => exact List.Perm.refl _
  | append_singleton l a ih =>
    rw [groupBy_concat]
    exact (perm_flatMap_upsert fun _ => rfl).trans (ih.append_right _)

/-- A group holds the items of its key, and at least one. -/
theorem mem_groupBy {l : List α} {b : κ × List α} (hb : b ∈ (groupBy k l).rows) :
    b.2 ≠ [] ∧ ∀ a ∈ b.2, k a = b.1 := by
  induction l using List.reverseRecOn generalizing b with
  | nil => cases hb
  | append_singleton l x ih =>
    rw [groupBy_concat] at hb
    rcases mem_upsert _ hb with ⟨hb, _⟩ | ⟨_, rfl | ⟨b₀, hb₀, hk, rfl⟩⟩
    · exact ih hb
    · refine ⟨List.cons_ne_nil _ _, fun a ha => ?_⟩
      rw [List.mem_singleton.mp ha]
    · refine ⟨by simp, fun a ha => ?_⟩
      rcases List.mem_append.mp ha with ha | ha
      · exact (ih hb₀).2 a ha
      · rw [List.mem_singleton.mp ha]
        exact hk.symm

/-- The group of a key holds its items in their order. -/
theorem find?_groupBy (l : List α) (b : κ) : (groupBy k l).find? b =
    if l.filter (k · = b) = [] then none else some (b, l.filter (k · = b)) := by
  induction l using List.reverseRecOn with
  | nil => rfl
  | append_singleton l a ih =>
    rw [groupBy_concat, List.filter_append]
    by_cases hb : b = k a
    · subst hb
      have hone : [a].filter (fun x => decide (k x = k a)) = [a] := by simp
      have hself : ((groupBy k l).upsert (k a, [a]) (fun g => (g.1, g.2 ++ [a])) fun _ _ => rfl).find?
          (Prod.fst (k a, [a])) =
          some (((groupBy k l).find? (k a)).elim (k a, [a]) fun g => (g.1, g.2 ++ [a])) :=
        find?_upsert_self _
      rw [hone, if_neg (List.append_ne_nil_of_right_ne_nil _ (List.cons_ne_nil _ _))]
      refine hself.trans ?_
      rw [ih]
      split_ifs with hnone
      · rw [hnone]
        rfl
      · rfl
    · have hnone : [a].filter (fun x => decide (k x = b)) = [] := by simp [Ne.symm hb]
      have hne : b ≠ Prod.fst (k a, [a]) := hb
      rw [find?_upsert_ne _ hne, ih, hnone, List.append_nil]

theorem mem_groupBy_iff {l : List α} {b : κ × List α} :
    b ∈ (groupBy k l).rows ↔ b.2 = l.filter (k · = b.1) ∧ b.2 ≠ [] := by
  obtain ⟨b, as⟩ := b
  have hfind : (b, as) ∈ (groupBy k l).rows ↔ (groupBy k l).find? b = some (b, as) := by
    rw [find?_eq_some_iff]
    exact (and_iff_left rfl).symm
  rw [hfind, find?_groupBy]
  constructor
  · intro h
    split_ifs at h with hnone
    obtain rfl := (Prod.mk.inj (Option.some.inj h)).2
    exact ⟨rfl, hnone⟩
  · rintro ⟨has, hne⟩
    dsimp only at has hne
    rw [← has, if_neg hne]

end Group

end Table
