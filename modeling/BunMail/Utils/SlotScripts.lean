import BunMail.Utils.SlotLine

/-!
# The scripts and the semaphore in memory

The sorted sets of a key mirror its slots in memory: the holders with a live lease, and the live
waiters in the order of their arrival.  A key that Redis lets expire held nothing that is still live.
-/

namespace BunMail.Utils.Slots

open Keyspace Timed

/-! ## Three sets -/

/-- The scores follow the order of the list. -/
def Ordered (line : ZSet Text) (l : List Text) : Prop :=
  l.Pairwise fun x y => ∀ a b, line.get? x = some a → line.get? y = some b → a < b

/-- The sets, with nothing lapsed, hold what the slots hold. -/
structure Same (slots : MemorySlots) (H Q W : ZSet Text) : Prop where
  holders : ∀ x, H.get? x = slots.holders.get? x
  places : ∀ x, W.get? x = slots.queue.get? x
  members : ∀ x, x ∈ Q.keys ↔ x ∈ slots.queue.keys
  order : Ordered Q slots.queue.keys

namespace Same

variable {slots : MemorySlots} {H Q W : ZSet Text} {holder : Text} {until' : Time}

theorem length_holders (h : Same slots H Q W) : H.rows.length = slots.holders.rows.length :=
  (Table.perm_of_get? h.holders).length_eq

theorem perm_line (h : Same slots H Q W) : slots.queue.keys.Perm Q.keys :=
  (List.perm_ext_iff_of_nodup slots.queue.unique Q.unique).mpr fun x => (h.members x).symm

theorem length_line (h : Same slots H Q W) : Q.rows.length = slots.queue.rows.length := by
  have := h.perm_line.length_eq
  rw [Table.keys, Table.keys, List.length_map, List.length_map] at this
  exact this.symm

/-- **Places.** Those ahead by rank are those ahead in memory. -/
theorem rank (h : Same slots H Q W) : (Q.rank holder).getD Q.rows.length = slots.ahead holder := by
  unfold MemorySlots.ahead
  split_ifs with hmem
  · rw [ZSet.rank_eq (fun m => List.lt_irrefl m) h.perm_line h.order hmem]
    rfl
  · have hnone : Q.get? holder = none :=
      Table.get?_eq_none_iff.mpr fun hq => hmem ((h.members holder).mp hq)
    rw [ZSet.rank, hnone]
    exact h.length_line

/-- After a grant. -/
theorem grant (h : Same slots H Q W) : Same
    ⟨slots.holders.put holder until', MemorySlots.without slots.queue holder⟩
      (H.put holder until') (Q.rem holder) (W.rem holder) := by
  constructor
  · intro x
    dsimp only
    rw [Table.get?_put, Table.get?_put, h.holders]
  · intro x
    rw [ZSet.rem, MemorySlots.without, Table.get?_deleteWhere, Table.get?_deleteWhere, h.places]
  · intro x
    have hrem : (Q.rem holder).keys = Q.keys.filter fun x => !decide (x = holder) :=
      MemorySlots.keys_deleteWhere holder
    dsimp only
    rw [hrem, MemorySlots.keys_deleteWhere, List.mem_filter, List.mem_filter, h.members]
  · dsimp only
    rw [MemorySlots.keys_deleteWhere]
    refine (h.order.sublist List.filter_sublist).imp fun hlt a b ha hb => ?_
    rw [ZSet.get?_rem] at ha hb
    split_ifs at ha hb
    exact hlt a b ha hb

/-- After a waiter asked again. -/
theorem again (h : Same slots H Q W) (hmem : holder ∈ slots.queue.keys) :
    Same { slots with queue := slots.queue.put holder until' } H Q (W.put holder until') := by
  constructor
  · exact h.holders
  · intro x
    dsimp only
    rw [Table.get?_put, Table.get?_put, h.places]
  · dsimp only
    rw [Table.keys_put_of_mem hmem]
    exact h.members
  · dsimp only
    rw [Table.keys_put_of_mem hmem]
    exact h.order

/-- After a newcomer joined the line, behind all others. -/
theorem join (h : Same slots H Q W) (hmem : holder ∉ slots.queue.keys) {arrival : ℕ}
    (hlast : ∀ x a, Q.get? x = some a → a < arrival) :
    Same { slots with queue := slots.queue.put holder until' } H (Q.put holder arrival)
      (W.put holder until') := by
  constructor
  · exact h.holders
  · intro x
    dsimp only
    rw [Table.get?_put, Table.get?_put, h.places]
  · intro x
    dsimp only
    rw [Table.mem_keys_put, Table.mem_keys_put, h.members]
  · dsimp only
    rw [Table.keys_put_of_notMem hmem]
    refine List.pairwise_append.mpr ⟨?_, List.pairwise_singleton _ _, ?_⟩
    · -- those in line already keep their scores
      have hne : ∀ x ∈ slots.queue.keys, x ≠ holder := fun x hx heq => hmem (heq ▸ hx)
      refine h.order.imp_of_mem fun {x y} hx hy hlt a b ha hb => ?_
      rw [Table.get?_put_ne (hne x hx)] at ha
      rw [Table.get?_put_ne (hne y hy)] at hb
      exact hlt a b ha hb
    · intro x hx y hy a b ha hb
      have hne : x ≠ holder := fun heq => hmem (heq ▸ hx)
      rw [List.mem_singleton.mp hy, Table.get?_put_self, Option.some.injEq] at hb
      rw [Table.get?_put_ne hne] at ha
      exact hb ▸ hlast x a ha

end Same

/-! ## What is stored -/

/-- The keys mirror the slots: places and the line expire together. -/
structure Mirrors (now : Time) (slots : MemorySlots) (ks : RedisSlotSemaphore) (key : Text) :
    Prop where
  holders : ∀ x, slots.holders.get? x = ((stored ks (key, .h)).live now).get? x
  places : ∀ x, slots.queue.get? x = ((stored ks (key, .w)).live now).get? x
  order : Ordered (stored ks (key, .q)) slots.queue.keys
  members : ∀ x, ((stored ks (key, .q)).get? x).isSome = ((stored ks (key, .w)).get? x).isSome
  lastsHolders : Lasts ks (key, .h)
  lastsPlaces : Lasts ks (key, .w)
  together : (ks.get? (key, .q)).map (·.expiresAt) = (ks.get? (key, .w)).map (·.expiresAt)

variable {gone : ℕ → ℕ → Bool} {now later : Time} {slots : MemorySlots} {ks ks' : RedisSlotSemaphore}
  {key holder : Text} {H Q W : ZSet Text}

theorem Mirrors.congr (h : Mirrors now slots ks key)
    (hget : ∀ part, ks'.get? (key, part) = ks.get? (key, part)) : Mirrors now slots ks' key := by
  constructor
  · rw [stored_congr (hget .h)]
    exact h.holders
  · rw [stored_congr (hget .w)]
    exact h.places
  · rw [stored_congr (hget .q)]
    exact h.order
  · rw [stored_congr (hget .q), stored_congr (hget .w)]
    exact h.members
  · exact h.lastsHolders.congr (hget .h)
  · exact h.lastsPlaces.congr (hget .w)
  · rw [hget, hget]
    exact h.together

theorem live_live {z : ZSet Text} (hle : now ≤ later) (x : Text) :
    ((z.live now).live later).get? x = (z.live later).get? x := by
  rw [ZSet.get?_live, ZSet.get?_live, ZSet.get?_live, Option.filter_filter]
  congr 1
  funext score
  rcases Nat.lt_or_ge later score with h | h
  · simp [h, Nat.lt_of_le_of_lt hle h]
  · simp [Nat.not_lt.mpr h]

/-- As time passes. -/
theorem Mirrors.mono (h : Mirrors now slots ks key) (hle : now ≤ later) :
    Mirrors later (slots.drop later) ks key := by
  have hdrop : ∀ (t : Leases) (z : ZSet Text), (∀ x, t.get? x = (z.live now).get? x) → ∀ x,
      (t.deleteWhere fun e => decide (e.2 ≤ later)).get? x = (z.live later).get? x := by
    intro t z ht x
    rw [MemorySlotSemaphore.get?_drop, ht, ← ZSet.get?_live, live_live hle]
  refine ⟨hdrop _ _ h.holders, hdrop _ _ h.places, ?_, h.members, h.lastsHolders, h.lastsPlaces,
    h.together⟩
  exact h.order.sublist (List.filter_sublist.map _)

/-! ### Written and seen -/

/-- The three keys hold the sets. -/
structure Holds (gone : ℕ → ℕ → Bool) (now : Time) (ks : RedisSlotSemaphore) (key : Text)
    (H Q W : ZSet Text) : Prop where
  h : Stores gone ks (key, .h) now H
  q : Stores gone ks (key, .q) now Q
  w : Stores gone ks (key, .w) now W

/-- `PEXPIRE` with the highest score. -/
theorem get?_expire {part scores : Part} {z s : ZSet Text} {k : Text × Part}
    (hz : Stores gone ks (key, part) now z) (hs : Stores gone ks (key, scores) now s)
    (hempty : z.rows = [] ↔ s.rows = []) (hlive : ∀ t, s.top = some t → now < t) :
    (RedisSlotSemaphore.expire gone ks key now part scores).get? k =
      if k = (key, part) then if z.rows = [] then none else some ⟨z, s.top⟩ else ks.get? k := by
  unfold RedisSlotSemaphore.expire
  rw [hs.zset_eq]
  cases htop : s.top with
  | none =>
    have hrows : z.rows = [] := by
      rw [ZSet.top, List.max?_eq_none_iff, List.map_eq_nil_iff] at htop
      exact hempty.mpr htop
    rw [Option.elim_none, if_pos hrows]
    split_ifs with hk
    · rcases hz with ⟨-, hget⟩ | ⟨hne, -⟩
      · rw [hk, hget]
      · exact absurd hrows hne
    · rfl
  | some top =>
    obtain ⟨r, hr, rfl⟩ := ZSet.exists_of_top htop
    have hrows : z.rows ≠ [] := fun hz => List.ne_nil_of_mem hr (hempty.mp hz)
    rw [Option.elim_some, if_neg hrows]
    rcases hz with ⟨hnil, -⟩ | ⟨-, x, -, hseen⟩
    · exact absurd hnil hrows
    · rw [get?_pexpire hseen]
      have hmax : ∀ n t : ℕ, n < t → n + max 1 (t - n) = t := fun n t hlt => by omega
      rw [hmax now r.2 (hlive r.2 htop)]

/-- A key that holds the set until its last score. -/
def Settled (ks : RedisSlotSemaphore) (key : Text) (part : Part) (z s : ZSet Text) : Prop :=
  ks.get? (key, part) = if z.rows = [] then none else some ⟨z, s.top⟩

theorem Settled.stored_eq {part : Part} {s z : ZSet Text} (h : Settled ks key part z s) :
    stored ks (key, part) = z := by
  rw [stored, h]
  split_ifs with hrows
  · exact Table.ext_rows hrows.symm
  · rfl

theorem Settled.lasts {part : Part} {z : ZSet Text} (h : Settled ks key part z z) :
    Lasts ks (key, part) := by
  intro e he
  rw [h] at he
  split_ifs at he with hrows
  cases he
  obtain ⟨r, hr⟩ := List.exists_mem_of_ne_nil _ hrows
  obtain ⟨t, ht, -⟩ := ZSet.le_top hr
  refine ⟨t, ht, fun r hr => ?_⟩
  obtain ⟨t', ht', hle⟩ := ZSet.le_top hr
  rw [ht, Option.some.injEq] at ht'
  exact ht' ▸ hle

theorem rows_eq_nil_iff {z : ZSet Text} : z.rows = [] ↔ z.keys = [] := by
  rw [Table.keys, List.map_eq_nil_iff]

/-- **The tail of the script.** -/
theorem settled_expireAll (h : Holds gone now ks key H Q W) (hempty : Q.rows = [] ↔ W.rows = [])
    (hH : ∀ r ∈ H.rows, now < r.2) (hW : ∀ r ∈ W.rows, now < r.2) :
    Settled (RedisSlotSemaphore.expireAll gone ks key now) key .h H H ∧
      Settled (RedisSlotSemaphore.expireAll gone ks key now) key .q Q W ∧
      Settled (RedisSlotSemaphore.expireAll gone ks key now) key .w W W := by
  unfold RedisSlotSemaphore.expireAll Settled
  dsimp only
  have htop : ∀ z : ZSet Text, (∀ r ∈ z.rows, now < r.2) → ∀ t, z.top = some t → now < t := by
    intro z hz t ht
    obtain ⟨r, hr, rfl⟩ := ZSet.exists_of_top ht
    exact hz r hr
  have h₁ : ∀ k, _ := fun k => get?_expire (k := k) h.h h.h Iff.rfl (htop H hH)
  have hq₁ := h.q.congr ((h₁ (key, .q)).trans (if_neg (by simp)))
  have hw₁ := h.w.congr ((h₁ (key, .w)).trans (if_neg (by simp)))
  have h₂ : ∀ k, _ := fun k => get?_expire (k := k) hq₁ hw₁ hempty (htop W hW)
  have hw₂ := hw₁.congr ((h₂ (key, .w)).trans (if_neg (by simp)))
  have h₃ : ∀ k, _ := fun k => get?_expire (k := k) hw₂ hw₂ Iff.rfl (htop W hW)
  refine ⟨?_, ?_, ?_⟩
  · rw [h₃, if_neg (by simp), h₂, if_neg (by simp), h₁, if_pos rfl]
  · rw [h₃, if_neg (by simp), h₂, if_pos rfl]
  · rw [h₃, if_pos rfl]

theorem get?_live_self {z : ZSet Text} (hz : ∀ r ∈ z.rows, now < r.2) (x : Text) :
    (z.live now).get? x = z.get? x := by
  rw [ZSet.get?_live]
  cases hx : z.get? x with
  | none => rfl
  | some score =>
    rw [Option.filter_some, if_pos (decide_eq_true (hz (x, score) (Table.mem_rows_iff_get?.mpr hx)))]

/-- The scores of a set that holds what the leases hold. -/
theorem lt_of_get? {t : Leases} {z : ZSet Text} (hz : ∀ x, z.get? x = t.get? x)
    (ht : ∀ e ∈ t.rows, now < e.2) : ∀ r ∈ z.rows, now < r.2 := by
  intro r hr
  exact ht r (Table.mem_rows_iff_get?.mpr ((hz r.1).symm.trans (Table.mem_rows_iff_get?.mp hr)))

/-- The sets that the script leaves mirror the slots. -/
theorem Mirrors.of_holds (h : Holds gone now ks key H Q W) (hsame : Same slots H Q W)
    (hholders : ∀ e ∈ slots.holders.rows, now < e.2) (hqueue : ∀ e ∈ slots.queue.rows, now < e.2) :
    Mirrors now slots (RedisSlotSemaphore.expireAll gone ks key now) key := by
  have hH := lt_of_get? hsame.holders hholders
  have hW := lt_of_get? hsame.places hqueue
  have hkeys : ∀ x, x ∈ Q.keys ↔ x ∈ W.keys := fun x => by
    rw [hsame.members, ← Table.get?_isSome_iff, ← Table.get?_isSome_iff, hsame.places]
  have hempty : Q.rows = [] ↔ W.rows = [] := by
    rw [rows_eq_nil_iff, rows_eq_nil_iff, List.eq_nil_iff_forall_not_mem,
      List.eq_nil_iff_forall_not_mem]
    exact forall_congr' fun x => not_congr (hkeys x)
  obtain ⟨hh, hq, hw⟩ := settled_expireAll h hempty hH hW
  constructor
  · intro x
    rw [hh.stored_eq, get?_live_self hH, hsame.holders]
  · intro x
    rw [hw.stored_eq, get?_live_self hW, hsame.places]
  · rw [hq.stored_eq]
    exact hsame.order
  · intro x
    rw [hq.stored_eq, hw.stored_eq, Bool.eq_iff_iff, Table.get?_isSome_iff, Table.get?_isSome_iff]
    exact hkeys x
  · exact hh.lasts
  · exact hw.lasts
  · rw [hq, hw]
    by_cases hrows : W.rows = []
    · rw [if_pos hrows, if_pos (hempty.mpr hrows)]
    · rw [if_neg hrows, if_neg fun hq => hrows (hempty.mp hq)]
      rfl

/-! ### The head of the script -/

theorem mem_lapsed {z : ZSet Text} {x : Text} :
    x ∈ z.lapsed now ↔ ∃ score, z.get? x = some score ∧ score ≤ now := by
  rw [ZSet.lapsed, List.mem_map]
  constructor
  · rintro ⟨r, hr, rfl⟩
    obtain ⟨hr, hle⟩ := List.mem_filter.mp hr
    exact ⟨r.2, Table.mem_rows_iff_get?.mp hr, of_decide_eq_true hle⟩
  · rintro ⟨score, hx, hle⟩
    refine ⟨(x, score), List.mem_filter.mpr ⟨Table.mem_rows_iff_get?.mpr hx, ?_⟩, rfl⟩
    exact decide_eq_true hle

/-- One `ZREM` after another. -/
theorem zset_rem_foldl (l : List Text) (x : Text) :
    (zset gone (l.foldl (fun ks member => zwrite gone ks (key, .q) now (ZSet.rem · member)) ks)
      (key, .q) now).get? x = if x ∈ l then none else (zset gone ks (key, .q) now).get? x := by
  induction l generalizing ks with
  | nil => rfl
  | cons y l ih =>
    rw [List.foldl_cons, ih, zset_zwrite, if_pos rfl, ZSet.get?_rem]
    by_cases hl : x ∈ l
    · rw [if_pos hl, if_pos (List.mem_cons_of_mem _ hl)]
    · by_cases hy : x = y
      · rw [if_neg hl, if_pos hy, if_pos (hy ▸ List.mem_cons_self)]
      · rw [if_neg hl, if_neg hy, if_neg]
        exact fun hmem => hl ((List.mem_cons.mp hmem).resolve_left hy)

theorem get?_rem_foldl (l : List Text) {k : Text × Part} (hk : k ≠ (key, .q)) :
    (l.foldl (fun ks member => zwrite gone ks (key, .q) now (ZSet.rem · member)) ks).get? k =
      ks.get? k := by
  induction l generalizing ks with
  | nil => rfl
  | cons y l ih => rw [List.foldl_cons, ih, get?_zwrite_ne hk]

theorem get?_cleaned {k : Text × Part} (hk : k.1 ≠ key) :
    (RedisSlotSemaphore.cleaned gone ks key now).get? k = ks.get? k := by
  have hne : ∀ part, k ≠ (key, part) := fun part heq => hk (congrArg Prod.fst heq)
  unfold RedisSlotSemaphore.cleaned
  rw [get?_zwrite_ne (hne .w), get?_rem_foldl _ (hne .q), get?_zwrite_ne (hne .h)]

theorem zset_cleaned_h : zset gone (RedisSlotSemaphore.cleaned gone ks key now) (key, .h) now =
    (zset gone ks (key, .h) now).live now := by
  unfold RedisSlotSemaphore.cleaned
  dsimp only
  rw [zset_congr (get?_zwrite_ne (by simp)), zset_congr (get?_rem_foldl _ (by simp)), zset_zwrite,
    if_pos rfl]

theorem zset_cleaned_w : zset gone (RedisSlotSemaphore.cleaned gone ks key now) (key, .w) now =
    (zset gone ks (key, .w) now).live now := by
  unfold RedisSlotSemaphore.cleaned
  dsimp only
  rw [zset_zwrite, if_pos rfl, zset_congr (get?_rem_foldl _ (by simp)),
    zset_congr (get?_zwrite_ne (by simp))]

theorem zset_cleaned_q (x : Text) :
    (zset gone (RedisSlotSemaphore.cleaned gone ks key now) (key, .q) now).get? x =
      if x ∈ (zset gone ks (key, .w) now).lapsed now then none
      else (zset gone ks (key, .q) now).get? x := by
  unfold RedisSlotSemaphore.cleaned
  dsimp only
  rw [zset_congr (get?_zwrite_ne (by simp)), zset_rem_foldl,
    zset_congr (get?_zwrite_ne (by simp)), zset_congr (get?_zwrite_ne (by simp))]

/-- The line and the places are seen together. -/
theorem seen?_together {a b : Text × Part}
    (h : (ks.get? a).map (·.expiresAt) = (ks.get? b).map (·.expiresAt))
    (hseen : seen? gone ks b now = none) : seen? gone ks a now = none := by
  unfold seen? at hseen ⊢
  cases ha : ks.get? a with
  | none => rfl
  | some e =>
    cases hb : ks.get? b with
    | none =>
      rw [ha, hb] at h
      cases h
    | some e' =>
      rw [ha, hb, Option.map_some, Option.map_some, Option.some.injEq] at h
      rw [hb, Option.filter_some] at hseen
      rw [Option.filter_some, h]
      split_ifs at hseen with hif
      rw [if_neg hif]

/-- Who waits is stored with its place. -/
theorem Mirrors.mem_queue (h : Mirrors now slots ks key) {x : Text} : x ∈ slots.queue.keys ↔
    ∃ score, (stored ks (key, .w)).get? x = some score ∧ now < score := by
  rw [← Table.get?_isSome_iff, h.places, ZSet.get?_live]
  cases (stored ks (key, .w)).get? x with
  | none => simp
  | some score => simp [Option.isSome_filter]

/-- The line, once the lapsed have left it. -/
theorem Mirrors.line (h : Mirrors now slots ks key) (hgone : ∀ t n, gone t n = true → t ≤ n)
    (x : Text) : (zset gone (RedisSlotSemaphore.cleaned gone ks key now) (key, .q) now).get? x =
      if x ∈ slots.queue.keys then (stored ks (key, .q)).get? x else none := by
  rw [zset_cleaned_q]
  cases hw : seen? gone ks (key, .w) now with
  | none =>
    -- both keys are gone, and nobody waits any more
    have hzw : zset gone ks (key, .w) now = Table.empty := by rw [zset, value?, hw]; rfl
    have hzq : zset gone ks (key, .q) now = Table.empty := by
      rw [zset, value?, seen?_together h.together hw]
      rfl
    have hmem : x ∉ slots.queue.keys := by
      rw [← Table.get?_isSome_iff, h.places, ← get?_live_zset hgone h.lastsPlaces, hzw]
      exact Bool.false_ne_true
    rw [if_neg hmem, hzq, hzw]
    split_ifs <;> rfl
  | some e =>
    cases hq : seen? gone ks (key, .q) now with
    | none =>
      rw [seen?_together h.together.symm hq] at hw
      cases hw
    | some e' =>
      have hsw : zset gone ks (key, .w) now = stored ks (key, .w) :=
        (zset_of_seen hw).1.trans (zset_of_seen hw).2.1.symm
      have hsq : zset gone ks (key, .q) now = stored ks (key, .q) :=
        (zset_of_seen hq).1.trans (zset_of_seen hq).2.1.symm
      rw [hsw, hsq]
      by_cases hmem : x ∈ slots.queue.keys
      · rw [if_pos hmem, if_neg]
        intro hlapsed
        obtain ⟨score, hx, hlt⟩ := h.mem_queue.mp hmem
        obtain ⟨score', hx', hle⟩ := mem_lapsed.mp hlapsed
        rw [hx, Option.some.injEq] at hx'
        exact absurd (hx' ▸ hle) (Nat.not_le.mpr hlt)
      · rw [if_neg hmem]
        split_ifs with hlapsed
        · rfl
        · -- neither live nor lapsed: not stored
          have hnone : (stored ks (key, .w)).get? x = none := by
            cases hx : (stored ks (key, .w)).get? x with
            | none => rfl
            | some score =>
              rcases Nat.lt_or_ge now score with hlt | hle
              · exact absurd (h.mem_queue.mpr ⟨score, hx, hlt⟩) hmem
              · exact absurd (mem_lapsed.mpr ⟨score, hx, hle⟩) hlapsed
          have hsome := h.members x
          rw [hnone, Option.isSome_none, Option.isSome_eq_false_iff, Option.isNone_iff_eq_none]
            at hsome
          exact hsome

/-- **Once the lapsed are dropped, the sets hold what the memory holds.** -/
theorem Mirrors.cleaned (h : Mirrors now slots ks key)
    (hgone : ∀ t n, gone t n = true → t ≤ n) :
    Same slots (zset gone (RedisSlotSemaphore.cleaned gone ks key now) (key, .h) now)
      (zset gone (RedisSlotSemaphore.cleaned gone ks key now) (key, .q) now)
      (zset gone (RedisSlotSemaphore.cleaned gone ks key now) (key, .w) now) := by
  constructor
  · intro x
    rw [zset_cleaned_h, get?_live_zset hgone h.lastsHolders, h.holders]
  · intro x
    rw [zset_cleaned_w, get?_live_zset hgone h.lastsPlaces, h.places]
  · intro x
    rw [← Table.get?_isSome_iff, h.line hgone]
    split_ifs with hmem
    · obtain ⟨score, hx, -⟩ := h.mem_queue.mp hmem
      rw [h.members, hx]
      exact iff_of_true rfl hmem
    · exact iff_of_false Bool.false_ne_true hmem
  · refine h.order.imp fun hlt a b ha hb => ?_
    rw [h.line hgone] at ha hb
    split_ifs at ha hb
    exact hlt a b ha hb

/-! ### The scripts -/

section Scripts

variable {options : SlotOptions}

/-- **The answer.** -/
theorem granted_eq {max : ℕ} (h : Same slots (zset gone ks (key, .h) now)
    (zset gone ks (key, .q) now) W) :
    RedisSlotSemaphore.granted gone ks key holder now max = slots.grants max holder := by
  unfold RedisSlotSemaphore.granted MemorySlots.grants
  dsimp only
  rw [h.holders, h.length_holders, h.rank]
  congr 1
  split_ifs with hfree
  · rw [decide_eq_true (by omega : slots.holders.rows.length < max), Bool.true_and]
    refine decide_eq_decide.mpr ?_
    omega
  · rw [decide_eq_false (by omega : ¬ slots.holders.rows.length < max), Bool.false_and]

theorem get?_granted {k : Text × Part} (hk : k.1 ≠ key) {leaseMs : ℕ} :
    (RedisSlotSemaphore.grant gone ks key holder now leaseMs).get? k = ks.get? k := by
  have hne : ∀ part, k ≠ (key, part) := fun part heq => hk (congrArg Prod.fst heq)
  unfold RedisSlotSemaphore.grant
  rw [get?_zwrite_ne (hne .w), get?_zwrite_ne (hne .q), get?_zwrite_ne (hne .h)]

theorem holds_grant {leaseMs : ℕ} :
    Holds gone now (RedisSlotSemaphore.grant gone ks key holder now leaseMs) key
      (Table.put (zset gone ks (key, .h) now) holder (now + leaseMs))
      (ZSet.rem (zset gone ks (key, .q) now) holder)
      (ZSet.rem (zset gone ks (key, .w) now) holder) := by
  unfold RedisSlotSemaphore.grant
  dsimp only
  constructor
  · refine Stores.congr (get?_zwrite_ne (by simp)) (Stores.congr (get?_zwrite_ne (by simp)) ?_)
    exact stores_zwrite
  · refine Stores.congr (get?_zwrite_ne (by simp)) (@stores_zwrite_of _ _ _ _ _ _ _ _ _ ?_)
    rw [zset_zwrite, if_neg (by simp)]
  · refine @stores_zwrite_of _ _ _ _ _ _ _ _ _ ?_
    rw [zset_zwrite, if_neg (by simp), zset_zwrite, if_neg (by simp)]

theorem get?_enqueue {k : Text × Part} (hk : k.1 ≠ key) {queueTtlMs : ℕ} :
    (RedisSlotSemaphore.enqueue gone ks key holder now queueTtlMs).get? k = ks.get? k := by
  have hne : ∀ part, k ≠ (key, part) := fun part heq => hk (congrArg Prod.fst heq)
  unfold RedisSlotSemaphore.enqueue
  rw [get?_zwrite_ne (hne .w)]
  split_ifs
  · rw [get?_zwrite_ne (hne .q)]
  · rfl

/-- Everyone in line came before. -/
theorem lt_arrival {x : Text} {a : ℕ} (hx : (zset gone ks (key, .q) now).get? x = some a) :
    a < RedisSlotSemaphore.arrival gone ks key now := by
  obtain ⟨t, ht, hle⟩ := ZSet.le_top (Table.mem_rows_iff_get?.mpr hx : (x, a) ∈ _)
  rw [RedisSlotSemaphore.arrival, ht, Option.elim_some]
  dsimp only at hle
  split_ifs with hlast
  · exact Nat.lt_succ_of_le hle
  · exact lt_of_le_of_lt hle (Nat.lt_of_not_le hlast)

theorem get?_expire_ne {part scores : Part} {k : Text × Part} (hk : k.1 ≠ key) :
    (RedisSlotSemaphore.expire gone ks key now part scores).get? k = ks.get? k := by
  have hne : k ≠ (key, part) := fun heq => hk (congrArg Prod.fst heq)
  unfold RedisSlotSemaphore.expire
  cases (zset gone ks (key, scores) now).top with
  | none => rfl
  | some top => exact get?_pexpire_ne hne

theorem get?_acquire {k : Text × Part} (hk : k.1 ≠ key) :
    (RedisSlotSemaphore.acquire gone ks key holder now options).2.get? k = ks.get? k := by
  unfold RedisSlotSemaphore.acquire RedisSlotSemaphore.expireAll
  dsimp only
  rw [get?_expire_ne hk, get?_expire_ne hk, get?_expire_ne hk]
  split_ifs
  · rw [get?_granted hk, get?_cleaned hk]
  · rw [get?_enqueue hk, get?_cleaned hk]

theorem stores_h_cleaned : Stores gone (RedisSlotSemaphore.cleaned gone ks key now) (key, .h) now
    (zset gone (RedisSlotSemaphore.cleaned gone ks key now) (key, .h) now) := by
  rw [zset_cleaned_h]
  unfold RedisSlotSemaphore.cleaned
  refine Stores.congr (get?_zwrite_ne (by simp)) (Stores.congr (get?_rem_foldl _ (by simp)) ?_)
  exact stores_zwrite

theorem holds_again {queueTtlMs : ℕ} (hh : Stores gone ks (key, .h) now H)
    (hsome : ((zset gone ks (key, .q) now).get? holder).isSome) :
    Holds gone now (RedisSlotSemaphore.enqueue gone ks key holder now queueTtlMs) key H
      (zset gone ks (key, .q) now)
      (Table.put (zset gone ks (key, .w) now) holder (now + queueTtlMs)) := by
  unfold RedisSlotSemaphore.enqueue
  dsimp only
  rw [if_neg (by rw [Option.isNone_eq_false_iff.mpr hsome]; exact Bool.false_ne_true)]
  constructor
  · exact hh.congr (get?_zwrite_ne (by simp))
  · exact (stores_of_mem hsome).congr (get?_zwrite_ne (by simp))
  · exact stores_zwrite

theorem holds_join {queueTtlMs : ℕ} (hh : Stores gone ks (key, .h) now H)
    (hnone : (zset gone ks (key, .q) now).get? holder = none) :
    Holds gone now (RedisSlotSemaphore.enqueue gone ks key holder now queueTtlMs) key H
      (Table.put (zset gone ks (key, .q) now) holder (RedisSlotSemaphore.arrival gone ks key now))
      (Table.put (zset gone ks (key, .w) now) holder (now + queueTtlMs)) := by
  unfold RedisSlotSemaphore.enqueue
  dsimp only
  rw [if_pos (by rw [hnone]; rfl)]
  constructor
  · exact Stores.congr (get?_zwrite_ne (by simp)) (hh.congr (get?_zwrite_ne (by simp)))
  · exact Stores.congr (get?_zwrite_ne (by simp)) stores_zwrite
  · refine @stores_zwrite_of _ _ _ _ _ _ _ _ _ ?_
    rw [zset_zwrite, if_neg (by simp)]

/-- **`ACQUIRE_SCRIPT` is `acquire`.** -/
theorem Mirrors.acquire (h : Mirrors now slots ks key) (hgone : ∀ t n, gone t n = true → t ≤ n)
    (hlive : slots.drop now = slots) :
    (RedisSlotSemaphore.acquire gone ks key holder now options).1 =
        slots.grants options.max holder ∧
      Mirrors now (slots.acquire options holder now)
        (RedisSlotSemaphore.acquire gone ks key holder now options).2 key := by
  have hsame := h.cleaned hgone
  have hanswer : RedisSlotSemaphore.granted gone (RedisSlotSemaphore.cleaned gone ks key now) key
      holder now options.max = slots.grants options.max holder := granted_eq hsame
  obtain ⟨hh, hq⟩ := @MemorySlots.lt_of_mem_drop slots now
  rw [hlive] at hh hq
  unfold RedisSlotSemaphore.acquire MemorySlots.acquire
  dsimp only
  rw [hanswer]
  refine ⟨rfl, ?_⟩
  split_ifs with hgrant
  · exact Mirrors.of_holds holds_grant hsame.grant
      (MemorySlots.lt_of_mem_put options.leaseMs_pos hh) (MemorySlots.lt_of_mem_without hq)
  · have hput := @MemorySlots.lt_of_mem_put now holder _ _ options.queueTtlMs_pos hq
    by_cases hmem : holder ∈ slots.queue.keys
    · have hsome := Table.get?_isSome_iff.mpr ((hsame.members holder).mpr hmem)
      exact Mirrors.of_holds (holds_again stores_h_cleaned hsome) (hsame.again hmem) hh hput
    · have hnone := Table.get?_eq_none_iff.mpr fun hq => hmem ((hsame.members holder).mp hq)
      exact Mirrors.of_holds (holds_join stores_h_cleaned hnone)
        (hsame.join hmem fun x a => lt_arrival) hh hput

/-- Only the holders' key is written. -/
theorem Mirrors.of_holders (h : Mirrors now slots ks key)
    (hq : ks'.get? (key, .q) = ks.get? (key, .q)) (hw : ks'.get? (key, .w) = ks.get? (key, .w))
    {holders : Leases} (hholders : ∀ x, holders.get? x = ((stored ks' (key, .h)).live now).get? x)
    (hlasts : Lasts ks' (key, .h)) : Mirrors now { slots with holders := holders } ks' key := by
  refine ⟨hholders, ?_, ?_, ?_, hlasts, h.lastsPlaces.congr hw, ?_⟩
  · rw [stored_congr hw]
    exact h.places
  · rw [stored_congr hq]
    exact h.order
  · rw [stored_congr hq, stored_congr hw]
    exact h.members
  · rw [hq, hw]
    exact h.together

theorem live_rem {z : ZSet Text} (x : Text) :
    ((z.rem holder).live now).get? x = if x = holder then none else (z.live now).get? x := by
  rw [ZSet.get?_live, ZSet.get?_rem, ZSet.get?_live]
  split_ifs <;> rfl

/-- Who holds no live lease may be dropped. -/
theorem Mirrors.rem_holder (h : Mirrors now slots ks key)
    (hlease : ∀ x, slots.holders.get? x = ((zset gone ks (key, .h) now).live now).get? x)
    (hnone : slots.holders.get? holder = none) :
    Mirrors now slots (zwrite gone ks (key, .h) now (ZSet.rem · holder)) key := by
  refine @Mirrors.of_holders _ _ _ _ _ h (get?_zwrite_ne (by simp)) (get?_zwrite_ne (by simp))
    slots.holders (fun x => ?_) ?_
  · rw [stored_zwrite, live_rem, ← hlease]
    split_ifs with hx
    · rw [hx, hnone]
    · rfl
  · exact h.lastsHolders.zwrite fun r hr => (Table.mem_deleteWhere.mp hr).1

/-- A lease is renewed, next to others that may have run out. -/
theorem Mirrors.put_holder (h : Mirrors now slots ks key)
    (hlease : ∀ x, slots.holders.get? x = ((zset gone ks (key, .h) now).live now).get? x)
    {until' : Time} (hlt : now < until') :
    Mirrors now { slots with holders := slots.holders.put holder until' }
      (RedisSlotSemaphore.expire gone (zwrite gone ks (key, .h) now (Table.put · holder until')) key
        now .h .h) key := by
  have hmem : (holder, until') ∈ (Table.put (zset gone ks (key, .h) now) holder until').rows :=
    Table.mem_rows_iff_get?.mpr Table.get?_put_self
  have hget : ∀ k, _ := fun k => @get?_expire _ _ _ key .h .h _ _ k
    (@stores_zwrite _ _ _ gone ks (key, .h) now (Table.put · holder until')) stores_zwrite Iff.rfl
    fun t ht => by
      obtain ⟨t', ht', hle⟩ := ZSet.le_top hmem
      rw [ht, Option.some.injEq] at ht'
      exact ht' ▸ lt_of_lt_of_le hlt hle
  have hsettled : Settled (RedisSlotSemaphore.expire gone
      (zwrite gone ks (key, .h) now (Table.put · holder until')) key now .h .h) key .h
      (Table.put (zset gone ks (key, .h) now) holder until')
      (Table.put (zset gone ks (key, .h) now) holder until') := by
    unfold Settled
    rw [hget, if_pos rfl]
  refine h.of_holders ?_ ?_ (fun x => ?_) hsettled.lasts
  · rw [hget, if_neg (by simp), get?_zwrite_ne (by simp)]
  · rw [hget, if_neg (by simp), get?_zwrite_ne (by simp)]
  · rw [hsettled.stored_eq, ZSet.get?_live, Table.get?_put, Table.get?_put, hlease, ZSet.get?_live]
    split_ifs
    · rw [Option.filter_some, if_pos (decide_eq_true hlt)]
    · rfl

/-- **`RENEW_SCRIPT` is `renew`.** -/
theorem Mirrors.renew (h : Mirrors now slots ks key) (hgone : ∀ t n, gone t n = true → t ≤ n)
    {leaseMs : ℕ} (hms : 1 ≤ leaseMs) :
    (RedisSlotSemaphore.renew gone ks key holder now leaseMs).1 =
        (slots.holders.get? holder).isSome ∧
      Mirrors now (if (slots.holders.get? holder).isSome then
        { slots with holders := slots.holders.put holder (now + leaseMs) } else slots)
        (RedisSlotSemaphore.renew gone ks key holder now leaseMs).2 key := by
  have hlease : ∀ x, slots.holders.get? x = ((zset gone ks (key, .h) now).live now).get? x :=
    fun x => (h.holders x).trans (get?_live_zset hgone h.lastsHolders x).symm
  have hself := hlease holder
  rw [ZSet.get?_live] at hself
  unfold RedisSlotSemaphore.renew
  cases hget : (zset gone ks (key, .h) now).get? holder with
  | none =>
    rw [hget, Option.filter_none] at hself
    rw [Option.elim_none, hself]
    exact ⟨rfl, h⟩
  | some lease =>
    rw [hget, Option.filter_some] at hself
    rw [Option.elim_some]
    by_cases hle : lease ≤ now
    · rw [if_neg (by simpa using hle)] at hself
      rw [if_pos hle, hself]
      exact ⟨rfl, h.rem_holder hlease hself⟩
    · rw [if_pos (by simpa using hle)] at hself
      rw [if_neg hle, hself]
      exact ⟨rfl, h.put_holder hlease (Nat.lt_add_of_pos_right hms)⟩

theorem get?_renew {k : Text × Part} (hk : k.1 ≠ key) {leaseMs : ℕ} :
    (RedisSlotSemaphore.renew gone ks key holder now leaseMs).2.get? k = ks.get? k := by
  have hne : k ≠ (key, .h) := fun heq => hk (congrArg Prod.fst heq)
  unfold RedisSlotSemaphore.renew
  cases (zset gone ks (key, .h) now).get? holder with
  | none => rfl
  | some lease =>
    rw [Option.elim_some]
    split_ifs
    · exact get?_zwrite_ne hne
    · exact (get?_expire_ne hk).trans (get?_zwrite_ne hne)

theorem get?_release_ne {k : Text × Part} (hk : k.1 ≠ key) :
    (RedisSlotSemaphore.release gone ks key holder now).get? k = ks.get? k := by
  have hne : ∀ part, k ≠ (key, part) := fun part heq => hk (congrArg Prod.fst heq)
  unfold RedisSlotSemaphore.release
  rw [get?_zwrite_ne (hne .w), get?_zwrite_ne (hne .q), get?_zwrite_ne (hne .h)]

/-- Each of the three keys loses the holder. -/
theorem get?_release (part : Part) : (RedisSlotSemaphore.release gone ks key holder now).get?
    (key, part) = (zwrite gone ks (key, part) now (ZSet.rem · holder)).get? (key, part) := by
  unfold RedisSlotSemaphore.release
  dsimp only
  cases part with
  | h => rw [get?_zwrite_ne (by simp), get?_zwrite_ne (by simp)]
  | q =>
    rw [get?_zwrite_ne (by simp), get?_zwrite, if_pos rfl, zset_congr (get?_zwrite_ne (by simp)),
      seen?_congr (get?_zwrite_ne (by simp)), get?_zwrite, if_pos rfl]
  | w =>
    have hw : ∀ f : ZSet Text → ZSet Text,
        (zwrite gone (zwrite gone ks (key, .h) now f) (key, .q) now f).get? (key, .w) =
          ks.get? (key, .w) := fun f => by
      rw [get?_zwrite_ne (by simp), get?_zwrite_ne (by simp)]
    rw [get?_zwrite, if_pos rfl, zset_congr (hw _), seen?_congr (hw _), get?_zwrite, if_pos rfl]

/-- What is seen of the line is seen of the places. -/
theorem Mirrors.seen (h : Mirrors now slots ks key) :
    (∀ x, ((zset gone ks (key, .q) now).get? x).isSome =
        ((zset gone ks (key, .w) now).get? x).isSome) ∧
      (seen? gone ks (key, .q) now).bind (·.expiresAt) =
        (seen? gone ks (key, .w) now).bind (·.expiresAt) := by
  cases hw : seen? gone ks (key, .w) now with
  | none =>
    have hq := seen?_together h.together hw
    rw [zset, zset, value?, value?, hq, hw]
    exact ⟨fun _ => rfl, rfl⟩
  | some e =>
    cases hq : seen? gone ks (key, .q) now with
    | none =>
      rw [seen?_together h.together.symm hq] at hw
      cases hw
    | some e' =>
      obtain ⟨hzw, hsw, hgw⟩ := zset_of_seen hw
      obtain ⟨hzq, hsq, hgq⟩ := zset_of_seen hq
      have htogether := h.together
      rw [hgw, hgq, Option.map_some, Option.map_some, Option.some.injEq] at htogether
      refine ⟨fun x => ?_, htogether⟩
      rw [hzw, hzq, ← hsw, ← hsq]
      exact h.members x

/-- **`RELEASE_SCRIPT` is `release`.** -/
theorem Mirrors.release (h : Mirrors now slots ks key) (hgone : ∀ t n, gone t n = true → t ≤ n) :
    Mirrors now ⟨MemorySlots.without slots.holders holder, MemorySlots.without slots.queue holder⟩
      (RedisSlotSemaphore.release gone ks key holder now) key := by
  obtain ⟨hseen, hexpiry⟩ := @Mirrors.seen gone now slots ks key h
  have hstored : ∀ part, stored (RedisSlotSemaphore.release gone ks key holder now) (key, part) =
      (zset gone ks (key, part) now).rem holder := fun part =>
    (stored_congr (get?_release part)).trans stored_zwrite
  have hwithout : ∀ (part : Part) (t : Leases), Lasts ks (key, part) →
      (∀ x, t.get? x = ((stored ks (key, part)).live now).get? x) → ∀ x,
        (MemorySlots.without t holder).get? x = ((stored
          (RedisSlotSemaphore.release gone ks key holder now) (key, part)).live now).get? x := by
    intro part t hlasts ht x
    have hrem : (MemorySlots.without t holder).get? x = if x = holder then none else t.get? x :=
      ZSet.get?_rem holder x
    rw [hstored, live_rem, hrem, get?_live_zset hgone hlasts, ht]
  have hlasts : ∀ part, Lasts ks (key, part) →
      Lasts (RedisSlotSemaphore.release gone ks key holder now) (key, part) := by
    intro part hl
    exact Lasts.congr (get?_release part)
      (hl.zwrite fun r hr => (Table.mem_deleteWhere.mp hr).1)
  have hmembers : ∀ x, (((zset gone ks (key, .q) now).rem holder).get? x).isSome =
      (((zset gone ks (key, .w) now).rem holder).get? x).isSome := by
    intro x
    rw [ZSet.get?_rem, ZSet.get?_rem]
    split_ifs
    · rfl
    · exact hseen x
  refine ⟨hwithout .h _ h.lastsHolders h.holders, hwithout .w _ h.lastsPlaces h.places, ?_, ?_,
    hlasts .h h.lastsHolders, hlasts .w h.lastsPlaces, ?_⟩
  · rw [hstored]
    dsimp only
    rw [MemorySlots.keys_deleteWhere]
    refine (h.order.sublist List.filter_sublist).imp fun hlt a b ha hb => ?_
    rw [ZSet.get?_rem] at ha hb
    split_ifs at ha hb
    exact hlt a b (get?_stored ha) (get?_stored hb)
  · intro x
    rw [hstored, hstored]
    exact hmembers x
  · rw [get?_release, get?_release, get?_zwrite, get?_zwrite, if_pos rfl, if_pos rfl, hexpiry]
    have hempty : ((zset gone ks (key, .q) now).rem holder).rows = [] ↔
        ((zset gone ks (key, .w) now).rem holder).rows = [] := by
      rw [rows_eq_nil_iff, rows_eq_nil_iff, List.eq_nil_iff_forall_not_mem,
        List.eq_nil_iff_forall_not_mem]
      refine forall_congr' fun x => not_congr ?_
      rw [← Table.get?_isSome_iff, ← Table.get?_isSome_iff, hmembers]
    by_cases hrows : ((zset gone ks (key, .w) now).rem holder).rows = []
    · rw [if_pos hrows, if_pos (hempty.mpr hrows)]
    · rw [if_neg hrows, if_neg fun hq => hrows (hempty.mp hq)]
      rfl

end Scripts

/-! ## Every run -/

section Runs

variable {m : MemorySlotSemaphore} {max : ℕ} {c : SlotCall}

/-- Every key mirrors its slots. -/
def Agrees (now : Time) (ks : RedisSlotSemaphore) (m : MemorySlotSemaphore) : Prop :=
  ∀ key, Mirrors now (MemorySlotSemaphore.slotsAt m key now) ks key

theorem Agrees.mono (h : Agrees now ks m) (hle : now ≤ later) : Agrees later ks m := by
  intro key
  rw [← MemorySlotSemaphore.slotsAt_drop hle]
  exact (h key).mono hle

/-- **One call.** Both answer the same, and their states still agree. -/
theorem Agrees.call (h : Agrees c.time ks m) (hgone : ∀ t n, gone t n = true → t ≤ n) :
    (RedisSlotSemaphore.call gone max ks c).1 = (MemorySlotSemaphore.call max m c).1 ∧
      Agrees c.time (RedisSlotSemaphore.call gone max ks c).2
        (MemorySlotSemaphore.call max m c).2 := by
  unfold RedisSlotSemaphore.call MemorySlotSemaphore.call
  cases c.op with
  | acquire key holder leaseMs queueTtlMs lease ttl =>
    dsimp only
    obtain ⟨hanswer, hmirrors⟩ := @Mirrors.acquire gone _ _ _ _ holder
      ⟨max, leaseMs, queueTtlMs, lease, ttl⟩ (h key) hgone (MemorySlotSemaphore.slotsAt_drop le_rfl)
    refine ⟨congrArg some hanswer, fun k => ?_⟩
    rw [MemorySlotSemaphore.slotsAt_acquire]
    split_ifs with hk
    · rw [hk]
      exact hmirrors
    · exact (h k).congr fun part => get?_acquire hk
  | renew key holder leaseMs lease =>
    dsimp only
    obtain ⟨hanswer, hmirrors⟩ := @Mirrors.renew gone _ _ _ _ holder (h key) hgone leaseMs lease
    refine ⟨congrArg some (hanswer.trans MemorySlotSemaphore.renew_fst.symm), fun k => ?_⟩
    rw [MemorySlotSemaphore.slotsAt_renew lease]
    by_cases hk : k = key
    · subst hk
      simp only [true_and]
      exact hmirrors
    · rw [if_neg fun hand => hk hand.1]
      exact (h k).congr fun part => get?_renew hk
  | release key holder =>
    refine ⟨rfl, fun k => ?_⟩
    dsimp only
    rw [MemorySlotSemaphore.slotsAt_release]
    split_ifs with hk
    · rw [hk]
      exact (h key).release hgone
    · exact (h k).congr fun part => get?_release_ne hk
  | prune =>
    refine ⟨rfl, fun k => ?_⟩
    dsimp only
    rw [MemorySlotSemaphore.slotsAt_prune]
    exact h k

/-- Nothing is stored. -/
theorem agrees_empty : Agrees now Table.empty Table.empty := by
  intro key
  refine ⟨fun _ => rfl, fun _ => rfl, List.Pairwise.nil, fun _ => rfl, fun e he => ?_,
    fun e he => ?_, rfl⟩
  · cases he
  · cases he

theorem sound_empty : MemorySlotSemaphore.Sound max now Table.empty :=
  ⟨fun _ => Nat.zero_le _, fun _ _ hx => absurd hx List.not_mem_nil⟩

variable {calls : List SlotCall} {start : Time}

theorem sound_final (ht : Ticks SlotCall.time start calls) :
    MemorySlotSemaphore.Sound max (lastTime SlotCall.time start calls)
      (final (MemorySlotSemaphore.call max) Table.empty calls) :=
  Timed.invariant (C := fun _ => True) (MemorySlotSemaphore.Sound max)
    (fun _ _ _ h hle _ => (h.mono hle).call) sound_empty ht fun _ _ => trivial

theorem agrees_final (hgone : ∀ t n, gone t n = true → t ≤ n)
    (ht : Ticks SlotCall.time start calls) : Agrees (lastTime SlotCall.time start calls)
      (final (RedisSlotSemaphore.call gone max) Table.empty calls)
      (final (MemorySlotSemaphore.call max) Table.empty calls) :=
  Timed.relates (C := fun _ => True) Agrees
    (fun _ _ _ _ h hle _ => ((h.mono hle).call hgone).2) agrees_empty ht fun _ _ => trivial

theorem history_eq_memory (hgone : ∀ t n, gone t n = true → t ≤ n)
    (ht : Ticks SlotCall.time start calls) :
    history (RedisSlotSemaphore.call gone max) Table.empty calls =
      history (MemorySlotSemaphore.call max) Table.empty calls := by
  have hstep : ∀ now ks m c, Agrees now ks m → now ≤ SlotCall.time c →
      (RedisSlotSemaphore.call gone max ks c).1 = (MemorySlotSemaphore.call max m c).1 ∧
        Agrees c.time (RedisSlotSemaphore.call gone max ks c).2
          (MemorySlotSemaphore.call max m c).2 :=
    fun now ks m c h hle => (h.mono hle).call hgone
  have hall := Timed.history_eq (C := fun _ => True) (fun _ => true) Agrees
    (fun now ks m c h hle _ => ⟨fun _ => (hstep now ks m c h hle).1, (hstep now ks m c h hle).2⟩)
    agrees_empty ht fun _ _ => trivial
  rw [List.filter_true, List.filter_true] at hall
  exact hall

/-- A waiter that would be granted a slot is one the free slots reach to. -/
theorem reaches_of_grants {key w : Text} {place : Time} (h : MemorySlotSemaphore.Sound max now m)
    (hplace : (MemorySlotSemaphore.slotsAt m key now).queue.get? w = some place)
    (hgrants : (MemorySlotSemaphore.slotsAt m key now).grants max w = true) :
    MemorySlotSemaphore.Reaches max key w place now m := by
  have hmem := Table.get?_isSome_iff.mp (Option.isSome_of_eq_some hplace)
  refine ⟨hplace, hmem, ?_⟩
  rcases MemorySlots.grants_iff.mp hgrants with hheld | hahead
  · exact absurd (Table.get?_isSome_iff.mp hheld) (h.apart key w hmem)
  · rw [MemorySlots.ahead, if_pos hmem] at hahead
    exact hahead

/-- What holds of the semaphore in memory from `now` until the next call. -/
structure Leased (max : ℕ) (now : Time) (m : MemorySlotSemaphore) : Prop where
  /-- The live leases of a key. -/
  bounded : ∀ key t, now ≤ t →
    (MemorySlotSemaphore.slotsAt m key t).holders.rows.length ≤ max
  /-- Who is granted a slot. -/
  granted : ∀ key holder t (options : SlotOptions), options.max = max →
    ((MemorySlotSemaphore.acquire m key holder t options).1 = true ↔
      ((MemorySlotSemaphore.slotsAt m key t).holders.get? holder).isSome ∨
        (MemorySlotSemaphore.slotsAt m key t).ahead holder <
          max - (MemorySlotSemaphore.slotsAt m key t).holders.rows.length)
  /-- Whatever others call while a waiter keeps its place, its own next `acquire` is granted if it
  would have been. -/
  turn : ∀ key w place t (options : SlotOptions), options.max = max → now ≤ t →
    (MemorySlotSemaphore.slotsAt m key t).queue.get? w = some place →
    (MemorySlotSemaphore.acquire m key w t options).1 = true →
    ∀ others : List SlotCall, (∀ c ∈ others, c.op.isBy key w = false) →
      Ticks SlotCall.time t others → ∀ t', lastTime SlotCall.time t others ≤ t' → t' < place →
        (MemorySlotSemaphore.acquire (final (MemorySlotSemaphore.call max) m others) key w t'
          options).1 = true
  /-- Whose lease is renewed. -/
  renewed : ∀ key holder t leaseMs, (MemorySlotSemaphore.renew m key holder t leaseMs).1 = true ↔
    ((MemorySlotSemaphore.slotsAt m key t).holders.get? holder).isSome
  /-- A late `renew` changes nobody's lease or place. -/
  late : ∀ key holder t leaseMs, 1 ≤ leaseMs →
    (MemorySlotSemaphore.renew m key holder t leaseMs).1 = false →
    ∀ k, MemorySlotSemaphore.slotsAt (MemorySlotSemaphore.renew m key holder t leaseMs).2 k t =
      MemorySlotSemaphore.slotsAt m k t
  /-- A `release` leaves the leases and the places of all others, and their order. -/
  released : ∀ key holder t k,
    (∀ x, k ≠ key ∨ x ≠ holder →
      (MemorySlotSemaphore.slotsAt (MemorySlotSemaphore.release m key holder) k t).holders.get? x =
          (MemorySlotSemaphore.slotsAt m k t).holders.get? x ∧
        (MemorySlotSemaphore.slotsAt (MemorySlotSemaphore.release m key holder) k t).queue.get? x =
          (MemorySlotSemaphore.slotsAt m k t).queue.get? x) ∧
    ((MemorySlotSemaphore.slotsAt (MemorySlotSemaphore.release m key holder) k t).queue.keys.filter
        fun x => !decide (x = holder)) =
      (MemorySlotSemaphore.slotsAt m k t).queue.keys.filter fun x => !decide (x = holder)

theorem leased (h : MemorySlotSemaphore.Sound max now m) : Leased max now m := by
  constructor
  case bounded =>
    intro key t hle
    exact (h.mono hle).bounded key
  case granted =>
    intro key holder t options hmax
    rw [← hmax]
    exact MemorySlots.grants_iff
  case turn =>
    intro key w place t options hmax hle hplace hgrants others hby hticks t' hlast hlt
    subst hmax
    have hreaches := reaches_of_grants (h.mono hle) hplace hgrants
    have hfinal := MemorySlotSemaphore.reaches_final hreaches hticks (lt_of_le_of_lt hlast hlt) hby
    exact (hfinal.mono hlast hlt).2.grants
  case renewed =>
    intro key holder t leaseMs
    rw [MemorySlotSemaphore.renew_fst]
  case late =>
    intro key holder t leaseMs hms hfalse k
    rw [MemorySlotSemaphore.renew_fst] at hfalse
    rw [MemorySlotSemaphore.slotsAt_renew hms, if_neg]
    rintro ⟨-, hsome⟩
    exact Bool.false_ne_true (hfalse.symm.trans hsome)
  case released =>
    intro key holder t k
    rw [MemorySlotSemaphore.slotsAt_release]
    split_ifs with hk
    · subst hk
      have hrem : ∀ (z : Leases) x, x ≠ holder →
          (MemorySlots.without z holder).get? x = z.get? x := fun z x hx =>
        (ZSet.get?_rem holder x).trans (if_neg hx)
      refine ⟨fun x hx => ?_, ?_⟩
      · have hne := hx.resolve_left (not_not.mpr rfl)
        exact ⟨hrem _ x hne, hrem _ x hne⟩
      · rw [MemorySlots.keys_deleteWhere, List.filter_filter]
        simp only [Bool.and_self]
    · exact ⟨fun _ _ => ⟨rfl, rfl⟩, rfl⟩

/-- **Leased slots.** After any calls the semaphore in memory keeps to `max`, grants in the order of
the line, and lets no call of one holder take what another holds or waits for; and the Redis scripts,
whose live leases are the same, give the same answer to every call. -/
theorem leasedSlots (gone : ℕ → ℕ → Bool) (hgone : ∀ t n, gone t n = true → t ≤ n) (max : ℕ)
    (start : Time) (calls : List SlotCall) (ht : Ticks SlotCall.time start calls) :
    Leased max (lastTime SlotCall.time start calls)
        (final (MemorySlotSemaphore.call max) Table.empty calls) ∧
      (∀ key t, lastTime SlotCall.time start calls ≤ t →
        ((stored (final (RedisSlotSemaphore.call gone max) Table.empty calls)
          (key, .h)).live t).rows.length ≤ max) ∧
      history (RedisSlotSemaphore.call gone max) Table.empty calls =
        history (MemorySlotSemaphore.call max) Table.empty calls := by
  have hsound := @sound_final max calls start ht
  refine ⟨leased hsound, fun key t hle => ?_, history_eq_memory hgone ht⟩
  have hmirrors := (@agrees_final gone max calls start hgone ht).mono hle key
  rw [← (Table.perm_of_get? hmirrors.holders).length_eq]
  exact (hsound.mono hle).bounded key

/-- Two replicas on one slot: the waiter is granted it once it is released. -/
theorem leasedSlots_two :
    let acquire := fun holder => SlotOp.acquire ['k'] holder 10 5 (by decide) (by decide)
    let calls : List SlotCall := [⟨0, acquire ['a']⟩, ⟨1, acquire ['b']⟩,
      ⟨2, .release ['k'] ['a']⟩, ⟨2, acquire ['c']⟩, ⟨3, acquire ['b']⟩]
    Ticks SlotCall.time 0 calls ∧
      history (RedisSlotSemaphore.call (fun t n => decide (t < n)) 1) Table.empty calls =
        history (MemorySlotSemaphore.call 1) Table.empty calls ∧
      (history (MemorySlotSemaphore.call 1) Table.empty calls).map Prod.snd =
        [some true, some false, none, some false, some true] := by
  intro acquire calls
  have ht : Ticks SlotCall.time 0 calls := by decide
  refine ⟨ht, (leasedSlots (fun t n => decide (t < n)) (fun t n h => ?_) 1 0 calls ht).2.2, ?_⟩
  · exact (of_decide_eq_true h).le
  · decide

end Runs

end BunMail.Utils.Slots
