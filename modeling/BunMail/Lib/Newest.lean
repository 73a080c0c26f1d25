import Mathlib.Data.List.DropRight
import Mathlib.Data.Finset.Card
import BunMail.Lib.Table

/-!
# Bounded maps that keep the newest entries

An entry is set as the newest of its map, and past the limit the oldest entries go.  The log holds what
was set, in order.  What was set last for a key stays until as many other keys as the limit were set
since, unless it is deleted.
-/

universe u v

namespace Newest

variable {κ : Type u} {β : Type v} [DecidableEq κ]

/-- The oldest entry goes while there are more than `limit`. -/
def evict (limit : ℕ) (t : Table (Prod.fst : κ × β → κ)) : Table (Prod.fst : κ × β → κ) :=
  ⟨t.rows.drop (t.rows.length - limit), ((List.drop_sublist _ _).map Prod.fst).nodup t.unique⟩

/-- The entry of `k` becomes the newest. -/
def set (limit : ℕ) (t : Table (Prod.fst : κ × β → κ)) (k : κ) (v : β) : Table (Prod.fst : κ × β → κ) :=
  evict limit ((t.deleteWhere (·.1 = k)).put k v)

/-! ## The log -/

/-- What was set last for a key. -/
def lastOf (log : List (κ × β)) (k : κ) : Option β := (log.reverse.find? (·.1 = k)).map Prod.snd

/-- What was set after the last entry of a key. -/
def since (log : List (κ × β)) (k : κ) : List (κ × β) := log.rtakeWhile (·.1 ≠ k)

/-- The number of keys set since. -/
def othersSince (log : List (κ × β)) (k : κ) : ℕ := ((since log k).map Prod.fst).toFinset.card

variable {log : List (κ × β)} {k k' : κ} {v : β}

@[simp] theorem lastOf_concat_self : lastOf (log ++ [(k, v)]) k = some v := by
  simp [lastOf]

theorem lastOf_concat_ne (h : k' ≠ k) : lastOf (log ++ [(k, v)]) k' = lastOf log k' := by
  simp [lastOf, h.symm]

@[simp] theorem since_concat_self : since (log ++ [(k, v)]) k = [] := by
  simp [since]

theorem since_concat_ne (h : k' ≠ k) : since (log ++ [(k, v)]) k' = since log k' ++ [(k, v)] :=
  List.rtakeWhile_concat_pos _ _ _ (by simpa using h.symm)

theorem othersSince_le_concat (h : k' ≠ k) : othersSince log k' ≤ othersSince (log ++ [(k, v)]) k' := by
  unfold othersSince
  rw [since_concat_ne h, List.map_append, List.toFinset_append]
  exact Finset.card_le_card Finset.subset_union_left

/-! ## The rows -/

/-- A row near the end stays. -/
theorem mem_drop_of_split {α : Type*} {l before after : List α} {e : α} {limit : ℕ}
    (hsplit : l = before ++ e :: after) (h : after.length < limit) : e ∈ l.drop (l.length - limit) := by
  have hfew : l.length - limit ≤ before.length := by
    rw [hsplit, List.length_append, List.length_cons]
    omega
  rw [hsplit] at hfew ⊢
  rw [List.drop_append_of_le_length hfew]
  exact List.mem_append_right _ List.mem_cons_self

/-- The rows of a map and what was set, with what may have been deleted. -/
structure Tracks (limit : ℕ) (gone : β → Prop) (log rows : List (κ × β)) : Prop where
  last : ∀ e ∈ rows, lastOf log e.1 = some e.2
  order : rows.Pairwise fun a b => b.1 ∈ (since log a.1).map Prod.fst
  kept : ∀ k v, lastOf log k = some v → othersSince log k < limit → gone v ∨ (k, v) ∈ rows
  bounded : rows.length ≤ limit

variable {limit : ℕ} {gone : β → Prop} {rows : List (κ × β)} {t : Table (Prod.fst : κ × β → κ)}

theorem tracks_nil : Tracks limit gone ([] : List (κ × β)) [] where
  last := fun _ he => absurd he List.not_mem_nil
  order := List.Pairwise.nil
  kept := fun k v h => absurd h (by simp [lastOf])
  bounded := Nat.zero_le _

theorem Tracks.mono {gone' : β → Prop} (h : Tracks limit gone log rows) (hgone : ∀ v, gone v → gone' v) :
    Tracks limit gone' log rows :=
  { h with kept := fun k v hlast hfew => (h.kept k v hlast hfew).imp_left (hgone v) }

theorem Tracks.filter {p : κ × β → Bool} (h : Tracks limit gone log rows)
    (hp : ∀ e ∈ rows, p e = false → gone e.2) : Tracks limit gone log (rows.filter p) where
  last := fun e he => h.last e (List.mem_filter.mp he).1
  order := h.order.sublist List.filter_sublist
  kept := fun k v hlast hfew => by
    refine (h.kept k v hlast hfew).elim .inl fun hmem => ?_
    cases hpe : p (k, v) with
    | false => exact .inl (hp _ hmem hpe)
    | true => exact .inr (List.mem_filter.mpr ⟨hmem, hpe⟩)
  bounded := (List.length_filter_le _ _).trans h.bounded

theorem set_rows : (set limit t k v).rows =
    (t.rows.filter (fun e => !decide (e.1 = k)) ++ [(k, v)]).drop
      ((t.rows.filter (fun e => !decide (e.1 = k)) ++ [(k, v)]).length - limit) := by
  have hnew : k ∉ (t.deleteWhere (·.1 = k)).keys := by
    intro hmem
    obtain ⟨e, he, rfl⟩ := List.mem_map.mp hmem
    exact absurd (Table.mem_deleteWhere.mp he).2 (by simp)
  have hput : ((t.deleteWhere (·.1 = k)).put k v).rows =
      t.rows.filter (fun e => !decide (e.1 = k)) ++ [(k, v)] := Table.put_rows_of_notMem hnew
  show List.drop _ _ = _
  rw [hput]

theorem length_set_le : (set limit t k v).rows.length ≤ limit := by
  rw [set_rows, List.length_drop]
  omega

/-- **Setting an entry keeps what was set last for a key**, until `limit` other keys were set. -/
theorem Tracks.set (h : Tracks limit gone log t.rows) :
    Tracks limit gone (log ++ [(k, v)]) (set limit t k v).rows := by
  have hrows : ∀ e ∈ t.rows.filter (fun e => !decide (e.1 = k)), e ∈ t.rows ∧ e.1 ≠ k := by
    intro e he
    obtain ⟨hmem, hne⟩ := List.mem_filter.mp he
    exact ⟨hmem, by simpa using hne⟩
  have horder : (t.rows.filter (fun e => !decide (e.1 = k)) ++ [(k, v)]).Pairwise
      fun a b => b.1 ∈ (since (log ++ [(k, v)]) a.1).map Prod.fst := by
    refine List.pairwise_append.mpr ⟨?_, List.pairwise_singleton _ _, fun a ha b hb => ?_⟩
    · refine (h.order.sublist List.filter_sublist).imp_of_mem fun {a b} ha _ hab => ?_
      rw [since_concat_ne (hrows a ha).2, List.map_append]
      exact List.mem_append_left _ hab
    · rw [List.mem_singleton.mp hb, since_concat_ne (hrows a ha).2, List.map_append]
      exact List.mem_append_right _ List.mem_cons_self
  have hunique : ((t.rows.filter (fun e => !decide (e.1 = k)) ++ [(k, v)]).map Prod.fst).Nodup := by
    rw [List.map_append, List.nodup_append]
    refine ⟨(List.filter_sublist.map Prod.fst).nodup t.unique, List.nodup_singleton _, ?_⟩
    intro a ha b hb
    obtain ⟨e, he, rfl⟩ := List.mem_map.mp ha
    rw [List.mem_singleton.mp hb]
    exact (hrows e he).2
  rw [set_rows]
  refine ⟨fun e he => ?_, horder.sublist (List.drop_sublist _ _), fun k' v' hlast hfew => ?_, ?_⟩
  · rcases List.mem_append.mp (List.mem_of_mem_drop he) with he | he
    · rw [lastOf_concat_ne (hrows e he).2]
      exact h.last e (hrows e he).1
    · rw [List.mem_singleton.mp he]
      exact lastOf_concat_self
  · by_cases hk : k' = k
    · subst hk
      rw [lastOf_concat_self] at hlast
      obtain rfl := Option.some.inj hlast
      exact .inr (mem_drop_of_split rfl (Nat.lt_of_le_of_lt (Nat.zero_le _) hfew))
    · rw [lastOf_concat_ne hk] at hlast
      refine (h.kept k' v' hlast (Nat.lt_of_le_of_lt (othersSince_le_concat hk) hfew)).imp_right fun hmem => ?_
      have hrow : (k', v') ∈ t.rows.filter (fun e => !decide (e.1 = k)) :=
        List.mem_filter.mpr ⟨hmem, by simpa using hk⟩
      obtain ⟨before, after, hsplit⟩ := List.append_of_mem hrow
      have hall : t.rows.filter (fun e => !decide (e.1 = k)) ++ [(k, v)] =
          before ++ (k', v') :: (after ++ [(k, v)]) := by
        rw [hsplit, List.append_assoc]
        rfl
      rw [hall] at horder hunique
      rw [hall]
      refine mem_drop_of_split rfl (Nat.lt_of_le_of_lt ?_ hfew)
      -- the rows behind it have different keys, each set since
      have hnewer := (List.pairwise_cons.mp (List.pairwise_append.mp horder).2.1).1
      rw [List.map_append, List.map_cons] at hunique
      have hdistinct := (List.nodup_cons.mp (List.nodup_append.mp hunique).2.1).2
      have hcard : (after ++ [(k, v)]).length = ((after ++ [(k, v)]).map Prod.fst).toFinset.card := by
        rw [List.toFinset_card_of_nodup hdistinct, List.length_map]
      rw [hcard]
      refine Finset.card_le_card fun key hkey => ?_
      obtain ⟨e, he, rfl⟩ := List.mem_map.mp (List.mem_toFinset.mp hkey)
      exact List.mem_toFinset.mpr (hnewer e he)
  · rw [List.length_drop]
    omega

end Newest
