import BunMail.Lib.Keyspace

/-!
# Sorted sets

Keys that hold members with scores.  Members are ordered by score, those of one score by themselves.
A key whose set becomes empty is removed.
-/

universe u v

namespace Keyspace

/-- Members with their scores. -/
abbrev ZSet (μ : Type v) := Table (Prod.fst : μ × ℕ → μ)

namespace ZSet

variable {μ : Type v} [DecidableEq μ] (z : ZSet μ)

/-- `ZRANK`: how many members come before it. -/
def rank [LT μ] [DecidableLT μ] (member : μ) : Option ℕ :=
  (z.get? member).map fun score =>
    z.rows.countP fun r => decide (r.2 < score) || (decide (r.2 = score) && decide (r.1 < member))

/-- The highest score. -/
def top : Option ℕ := (z.rows.map Prod.snd).max?

/-- `ZREM`. -/
def rem (member : μ) : ZSet μ := z.deleteWhere fun r => decide (r.1 = member)

/-- `ZREMRANGEBYSCORE -inf now`. -/
def live (now : ℕ) : ZSet μ := z.deleteWhere fun r => decide (r.2 ≤ now)

/-- `ZRANGEBYSCORE -inf now`. -/
def lapsed (now : ℕ) : List μ := (z.rows.filter fun r => decide (r.2 ≤ now)).map Prod.fst

variable {z}

theorem get?_rem (member m : μ) : (z.rem member).get? m = if m = member then none else z.get? m := by
  rw [rem, Table.get?_deleteWhere]
  cases z.get? m with
  | none => simp
  | some score => by_cases h : m = member <;> simp [h, Option.filter_some]

theorem get?_live (now : ℕ) (m : μ) :
    (z.live now).get? m = (z.get? m).filter fun score => decide (now < score) := by
  rw [live, Table.get?_deleteWhere]
  congr 1
  funext score
  rcases Nat.lt_or_ge now score with h | h
  · simp [h, Nat.not_le.mpr h]
  · simp [h, Nat.not_lt.mpr h]

omit [DecidableEq μ] in
theorem le_top {r : μ × ℕ} (h : r ∈ z.rows) : ∃ t, z.top = some t ∧ r.2 ≤ t := by
  cases htop : z.top with
  | none =>
    rw [top, List.max?_eq_none_iff, List.map_eq_nil_iff] at htop
    exact absurd (htop ▸ h) List.not_mem_nil
  | some t =>
    exact ⟨t, rfl, (List.max?_eq_some_iff.mp htop).2 r.2 (List.mem_map_of_mem h)⟩

omit [DecidableEq μ] in
theorem exists_of_top {t : ℕ} (h : z.top = some t) : ∃ r ∈ z.rows, r.2 = t :=
  List.mem_map.mp (List.max?_eq_some_iff.mp h).1

/-- **The rank.** In a list of the members that is ordered by score, the rank is the place. -/
theorem rank_eq [BEq μ] [LawfulBEq μ] [LT μ] [DecidableLT μ] (hirrefl : ∀ m : μ, ¬ m < m)
    {l : List μ} (hperm : l.Perm z.keys)
    (hl : l.Pairwise fun x y => ∀ a b, z.get? x = some a → z.get? y = some b → a < b) {x : μ}
    (hx : x ∈ l) : z.rank x = some (l.idxOf x) := by
  have hn : l.Nodup := hperm.nodup_iff.mpr z.unique
  have hscore : ∀ y ∈ l, ∃ a, z.get? y = some a := fun y hy =>
    Option.isSome_iff_exists.mp (Table.get?_isSome_iff.mpr (hperm.subset hy))
  obtain ⟨s, hs⟩ := hscore x hx
  have hrank : z.rank x = some (z.rows.countP fun r =>
      decide (r.2 < s) || (decide (r.2 = s) && decide (r.1 < x))) := by
    rw [rank, hs]
    rfl
  -- the rows, listed in the order of `l`
  have hrows : z.rows.Perm (l.filterMap fun y => (z.get? y).map fun a => (y, a)) := by
    have hkeys : z.keys.filterMap (fun y => (z.get? y).map fun a => (y, a)) = z.rows := by
      rw [Table.keys, List.filterMap_map]
      conv_rhs => rw [← List.filterMap_some (l := z.rows)]
      refine List.filterMap_congr fun r hr => ?_
      rw [Function.comp_apply, Table.mem_rows_iff_get?.mp hr]
      rfl
    rw [← hkeys]
    exact (hperm.filterMap _).symm
  rw [hrank, hrows.countP_eq, List.countP_filterMap]
  obtain ⟨l₁, l₂, rfl⟩ := List.append_of_mem hx
  rw [List.nodup_append] at hn
  have hx₁ : x ∉ l₁ := fun h => hn.2.2 x h x List.mem_cons_self rfl
  obtain ⟨-, hl₂, hl₁⟩ := List.pairwise_append.mp hl
  rw [List.pairwise_cons] at hl₂
  rw [List.countP_append, List.countP_cons, List.idxOf_append_of_notMem hx₁, List.idxOf_cons_self]
  have hbefore : l₁.countP (fun y => (((z.get? y).map fun a => (y, a)).map fun r =>
      decide (r.2 < s) || (decide (r.2 = s) && decide (r.1 < x))).getD false) = l₁.length := by
    refine List.countP_eq_length.mpr fun y hy => ?_
    obtain ⟨a, ha⟩ := hscore y (List.mem_append_left _ hy)
    have := hl₁ y hy x List.mem_cons_self a s ha hs
    simp [ha, this]
  have hafter : l₂.countP (fun y => (((z.get? y).map fun a => (y, a)).map fun r =>
      decide (r.2 < s) || (decide (r.2 = s) && decide (r.1 < x))).getD false) = 0 := by
    refine List.countP_eq_zero.mpr fun y hy => ?_
    obtain ⟨a, ha⟩ := hscore y (List.mem_append_right _ (List.mem_cons_of_mem _ hy))
    have := hl₂.1 y hy s a hs ha
    simp [ha, Nat.not_lt.mpr this.le, this.ne']
  have hself : (((z.get? x).map fun a => (x, a)).map fun r =>
      decide (r.2 < s) || (decide (r.2 = s) && decide (r.1 < x))).getD false = false := by
    simp [hs, hirrefl]
  refine congrArg some (congrArg₂ (· + ·) hbefore ?_)
  rw [if_neg (ne_true_of_eq_false hself)]
  exact hafter

end ZSet

section Commands

variable {κ : Type u} {μ : Type v} [DecidableEq κ] [DecidableEq μ] (gone : ℕ → ℕ → Bool)
  (keys : Keys κ (ZSet μ)) (key : κ) (now : ℕ)

/-- The set of a key, empty without one. -/
def zset : ZSet μ := (value? gone keys key now).getD Table.empty

/-- A command that writes the set. -/
def zwrite (f : ZSet μ → ZSet μ) : Keys κ (ZSet μ) :=
  if (f (zset gone keys key now)).rows = [] then del keys key
  else write gone keys key now fun _ => f (zset gone keys key now)

/-- What is stored under a key, seen or not. -/
def stored : ZSet μ := ((keys.get? key).map (·.value)).getD Table.empty

/-- No member outlasts its key. -/
def Lasts : Prop :=
  ∀ e, keys.get? key = some e → ∃ t, e.expiresAt = some t ∧ ∀ r ∈ e.value.rows, r.2 ≤ t

/-- The key holds the set, and nothing when that is empty. -/
def Stores (z : ZSet μ) : Prop :=
  (z.rows = [] ∧ keys.get? key = none) ∨
    (z.rows ≠ [] ∧ ∃ x, keys.get? key = some ⟨z, x⟩ ∧ seen? gone keys key now = some ⟨z, x⟩)

variable {gone keys key now} {k : κ} {f : ZSet μ → ZSet μ} {z : ZSet μ}

omit [DecidableEq μ] in
theorem get?_zwrite : (zwrite gone keys key now f).get? k = if k = key then
    if (f (zset gone keys key now)).rows = [] then none
    else some ⟨f (zset gone keys key now), (seen? gone keys key now).bind (·.expiresAt)⟩
      else keys.get? k := by
  unfold zwrite
  by_cases h : (f (zset gone keys key now)).rows = []
  · rw [if_pos h, if_pos h, get?_del]
  · rw [if_neg h, if_neg h, get?_write]

omit [DecidableEq μ] in
theorem get?_zwrite_ne (h : k ≠ key) : (zwrite gone keys key now f).get? k = keys.get? k := by
  rw [get?_zwrite, if_neg h]

omit [DecidableEq μ] in
theorem seen?_congr {keys' : Keys κ (ZSet μ)} (h : keys'.get? k = keys.get? k) (now : ℕ) :
    seen? gone keys' k now = seen? gone keys k now := by
  rw [seen?, seen?, h]

omit [DecidableEq μ] in
theorem zset_congr {keys' : Keys κ (ZSet μ)} (h : keys'.get? k = keys.get? k) (now : ℕ) :
    zset gone keys' k now = zset gone keys k now := by
  rw [zset, zset, value?, value?, seen?_congr h]

omit [DecidableEq μ] in
theorem Stores.congr {keys' : Keys κ (ZSet μ)} (h : keys'.get? k = keys.get? k)
    (hs : Stores gone keys k now z) : Stores gone keys' k now z := by
  unfold Stores
  rw [h, seen?_congr h]
  exact hs

omit [DecidableEq μ] in
theorem Stores.zset_eq (h : Stores gone keys key now z) : zset gone keys key now = z := by
  rcases h with ⟨hrows, hget⟩ | ⟨_, x, _, hseen⟩
  · rw [zset, value?, seen?, hget]
    exact Table.ext_rows hrows.symm
  · rw [zset, value?, hseen]
    rfl

omit [DecidableEq μ] in
/-- A written key holds the set that was written. -/
theorem stores_zwrite : Stores gone (zwrite gone keys key now f) key now
    (f (zset gone keys key now)) := by
  unfold zwrite
  split_ifs with h
  · exact .inl ⟨h, by rw [get?_del, if_pos rfl]⟩
  · exact .inr ⟨h, _, by rw [get?_write, if_pos rfl], seen?_write_self _⟩

omit [DecidableEq μ] in
theorem stores_zwrite_of (h : zset gone keys key now = z) :
    Stores gone (zwrite gone keys key now f) key now (f z) := h ▸ stores_zwrite

omit [DecidableEq μ] in
theorem zset_zwrite : zset gone (zwrite gone keys key now f) k now =
    if k = key then f (zset gone keys key now) else zset gone keys k now := by
  split_ifs with h
  · rw [h, stores_zwrite.zset_eq]
  · exact zset_congr (get?_zwrite_ne h) now

omit [DecidableEq μ] in
theorem stored_congr {keys' : Keys κ (ZSet μ)} (h : keys'.get? k = keys.get? k) :
    stored keys' k = stored keys k := by
  rw [stored, stored, h]

omit [DecidableEq μ] in
theorem Lasts.congr {keys' : Keys κ (ZSet μ)} (h : keys'.get? k = keys.get? k)
    (hl : Lasts keys k) : Lasts keys' k := by
  unfold Lasts
  rw [h]
  exact hl

omit [DecidableEq μ] in
/-- A key that is seen is stored as it is seen. -/
theorem zset_of_seen {e : Expiring (ZSet μ)} (h : seen? gone keys key now = some e) :
    zset gone keys key now = e.value ∧ stored keys key = e.value ∧ keys.get? key = some e := by
  have hget := (Option.filter_eq_some_iff.mp h).1
  rw [zset, value?, h, stored, hget]
  exact ⟨rfl, rfl, rfl⟩

omit [DecidableEq μ] in
theorem stored_zwrite : stored (zwrite gone keys key now f) key = f (zset gone keys key now) := by
  rw [stored, get?_zwrite, if_pos rfl]
  split_ifs with h
  · exact Table.ext_rows h.symm
  · rfl

theorem get?_stored {x : μ} {score : ℕ} (h : (zset gone keys key now).get? x = some score) :
    (stored keys key).get? x = some score := by
  cases hseen : seen? gone keys key now with
  | none =>
    rw [zset, value?, hseen] at h
    cases h
  | some e =>
    obtain ⟨hz, hs, -⟩ := zset_of_seen hseen
    rw [hs, ← hz]
    exact h

omit [DecidableEq μ] in
/-- A key keeps its expiry as members leave. -/
theorem Lasts.zwrite (h : Lasts keys key)
    (hsub : ∀ r ∈ (f (zset gone keys key now)).rows, r ∈ (zset gone keys key now).rows) :
    Lasts (zwrite gone keys key now f) key := by
  intro e he
  rw [get?_zwrite, if_pos rfl] at he
  split_ifs at he with hrows
  cases he
  obtain ⟨r, hr⟩ := List.exists_mem_of_ne_nil _ hrows
  cases hseen : seen? gone keys key now with
  | none =>
    have hmem := hsub r hr
    rw [zset, value?, hseen] at hmem
    cases hmem
  | some e =>
    obtain ⟨hz, -, hget⟩ := zset_of_seen hseen
    obtain ⟨t, ht, hle⟩ := h e hget
    refine ⟨t, ht, fun r hr => hle r ?_⟩
    rw [← hz]
    exact hsub r hr

/-- A set with a member is stored. -/
theorem stores_of_mem {x : μ} (h : ((zset gone keys key now).get? x).isSome) :
    Stores gone keys key now (zset gone keys key now) := by
  cases hseen : seen? gone keys key now with
  | none =>
    rw [zset, value?, hseen] at h
    cases h
  | some e =>
    obtain ⟨hz, -, hget⟩ := zset_of_seen hseen
    rw [hz] at h ⊢
    refine .inr ⟨fun hrows => ?_, e.expiresAt, hget, hseen⟩
    have hmem := Table.get?_isSome_iff.mp h
    rw [Table.keys, hrows] at hmem
    cases hmem

/-- **Whole-key expiry.** What has not lapsed of a set is the same, whether its key is gone or
not. -/
theorem get?_live_zset (hgone : ∀ t n, gone t n = true → t ≤ n) (h : Lasts keys key) (x : μ) :
    ((zset gone keys key now).live now).get? x = ((stored keys key).live now).get? x := by
  cases hseen : seen? gone keys key now with
  | some e =>
    obtain ⟨hz, hs, -⟩ := zset_of_seen hseen
    rw [hz, hs]
  | none =>
    rw [zset, value?, hseen, Option.map_none, Option.getD_none, stored]
    cases hget : keys.get? key with
    | none => rfl
    | some e =>
      obtain ⟨t, ht, hle⟩ := h e hget
      rw [seen?, hget, Option.filter_some, ht, Option.elim_some] at hseen
      have hg : gone t now = true := by
        by_contra hng
        rw [Bool.not_eq_true] at hng
        rw [hng] at hseen
        cases hseen
      rw [Option.map_some, Option.getD_some, ZSet.get?_live, ZSet.get?_live]
      cases hx : e.value.get? x with
      | none => rfl
      | some score =>
        have hscore := hle (x, score) (Table.mem_rows_iff_get?.mpr hx)
        rw [Option.filter_some, if_neg]
        · rfl
        · simpa using hscore.trans (hgone t now hg)

end Commands

end Keyspace
