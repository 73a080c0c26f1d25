import BunMail.Lib.Timed
import BunMail.Utils.SlotSemaphores

/-!
# The line for a slot

The memory semaphore, key by key: `slotsAt` is what is left of a key's slots once the lapsed leases
and places are dropped, and each call changes the slots of its own key.
-/

namespace BunMail.Utils.Slots

open Timed

/-! ## Places in a list -/

section Places

variable {α : Type} [BEq α] [LawfulBEq α] {l : List α} {a b : α}

theorem idxOf_filter_le (p : α → Bool) (h : p a = true) : (l.filter p).idxOf a ≤ l.idxOf a := by
  induction l with
  | nil => exact le_rfl
  | cons x l ih =>
    by_cases hx : x = a
    · subst hx
      rw [List.filter_cons_of_pos h]
      simp
    · rw [List.idxOf_cons_ne _ hx]
      cases hp : p x with
      | true =>
        rw [List.filter_cons_of_pos hp, List.idxOf_cons_ne _ hx]
        exact Nat.succ_le_succ ih
      | false =>
        rw [List.filter_cons_of_neg (by simp [hp])]
        exact ih.trans (Nat.le_succ _)

theorem idxOf_map_filter_le {β : Type} (f : β → α) (p : β → Bool) {l : List β} (hn : (l.map f).Nodup)
    (h : a ∈ (l.filter p).map f) : ((l.filter p).map f).idxOf a ≤ (l.map f).idxOf a := by
  induction l with
  | nil => exact le_rfl
  | cons x l ih =>
    rw [List.map_cons, List.nodup_cons] at hn
    by_cases hx : f x = a
    · -- no other item has the key, so this one is kept
      have hp : p x = true := by
        obtain ⟨y, hy, hya⟩ := List.mem_map.mp h
        obtain ⟨hy, hp⟩ := List.mem_filter.mp hy
        rcases List.mem_cons.mp hy with rfl | hy
        · exact hp
        · exact absurd (List.mem_map.mpr ⟨y, hy, hya.trans hx.symm⟩) hn.1
      rw [List.filter_cons_of_pos hp, List.map_cons, hx, List.idxOf_cons_self]
      exact Nat.zero_le _
    · rw [List.map_cons, List.idxOf_cons_ne _ hx]
      cases hp : p x with
      | true =>
        rw [List.filter_cons_of_pos hp, List.map_cons] at h ⊢
        rw [List.idxOf_cons_ne _ hx]
        exact Nat.succ_le_succ (ih hn.2 ((List.mem_cons.mp h).resolve_left (Ne.symm hx)))
      | false =>
        rw [List.filter_cons_of_neg (by simp [hp])] at h ⊢
        exact (ih hn.2 h).trans (Nat.le_succ _)

/-- Whoever stands before moves everyone behind up by leaving. -/
theorem idxOf_filter_lt [DecidableEq α] (hab : a ≠ b) (h : l.idxOf b < l.idxOf a) :
    (l.filter fun x => !decide (x = b)).idxOf a < l.idxOf a := by
  induction l with
  | nil => exact absurd h (lt_irrefl _)
  | cons x l ih =>
    by_cases hx : x = a
    · subst hx
      rw [List.idxOf_cons_self] at h
      exact absurd h (Nat.not_lt_zero _)
    · rw [List.idxOf_cons_ne _ hx] at h ⊢
      by_cases hb : x = b
      · subst hb
        rw [List.filter_cons_of_neg (by simp)]
        exact Nat.lt_succ_of_le (idxOf_filter_le _ (by simpa using hab))
      · rw [List.idxOf_cons_ne _ hb] at h
        rw [List.filter_cons_of_pos (by simpa using hb), List.idxOf_cons_ne _ hx]
        exact Nat.succ_lt_succ (ih (Nat.lt_of_succ_lt_succ h))

end Places

/-! ## The slots of a key -/

namespace MemorySlots

variable {slots : MemorySlots} {now later : Time} {holder w : Text} {max : ℕ} {options : SlotOptions}

theorem drop_drop (hle : now ≤ later) : (slots.drop now).drop later = slots.drop later := by
  have hdrop : ∀ t : Leases, (t.deleteWhere fun e => decide (e.2 ≤ now)).deleteWhere
      (fun e => decide (e.2 ≤ later)) = t.deleteWhere fun e => decide (e.2 ≤ later) := by
    intro t
    refine Table.ext_rows ?_
    show List.filter _ (List.filter _ _) = List.filter _ _
    rw [List.filter_filter]
    refine List.filter_congr fun e _ => ?_
    by_cases h : e.2 ≤ later
    · simp [h]
    · simp [h, lt_of_le_of_lt hle (not_le.mp h)]
  exact congrArg₂ MemorySlots.mk (hdrop _) (hdrop _)

/-- What has not lapsed stays. -/
theorem drop_eq_self (hh : ∀ e ∈ slots.holders.rows, now < e.2)
    (hq : ∀ e ∈ slots.queue.rows, now < e.2) : slots.drop now = slots := by
  have hself : ∀ t : Leases, (∀ e ∈ t.rows, now < e.2) →
      (t.deleteWhere fun e => decide (e.2 ≤ now)) = t := by
    intro t ht
    refine Table.ext_rows (List.filter_eq_self.mpr fun e he => ?_)
    simpa using ht e he
  exact congrArg₂ MemorySlots.mk (hself _ hh) (hself _ hq)

theorem lt_of_mem_drop : (∀ e ∈ (slots.drop now).holders.rows, now < e.2) ∧
    ∀ e ∈ (slots.drop now).queue.rows, now < e.2 := by
  constructor
  · intro e he
    simpa using (Table.mem_deleteWhere.mp he).2
  · intro e he
    simpa using (Table.mem_deleteWhere.mp he).2

/-- A lease that is written outlasts `now`. -/
theorem lt_of_mem_put {t : Leases} {ms : ℕ} (hms : 1 ≤ ms) (ht : ∀ e ∈ t.rows, now < e.2) :
    ∀ e ∈ (t.put holder (now + ms)).rows, now < e.2 := by
  intro e he
  rcases Table.mem_upsert _ he with ⟨he, _⟩ | ⟨_, rfl | ⟨_, _, _, rfl⟩⟩
  · exact ht e he
  · exact Nat.lt_add_of_pos_right hms
  · exact Nat.lt_add_of_pos_right hms

theorem lt_of_mem_without {t : Leases} (ht : ∀ e ∈ t.rows, now < e.2) :
    ∀ e ∈ (without t holder).rows, now < e.2 := fun e he => ht e (Table.mem_deleteWhere.mp he).1

theorem drop_acquire (options : SlotOptions) (holder : Text) :
    ((slots.drop now).acquire options holder now).drop now =
      (slots.drop now).acquire options holder now := by
  obtain ⟨hh, hq⟩ := @lt_of_mem_drop slots now
  unfold acquire
  split_ifs
  · exact drop_eq_self (lt_of_mem_put options.leaseMs_pos hh) (lt_of_mem_without hq)
  · exact drop_eq_self hh (lt_of_mem_put options.queueTtlMs_pos hq)

/-! ### Sizes -/

theorem length_put {t : Leases} {k : Text} {v : Time} : (t.put k v).rows.length =
    if k ∈ t.keys then t.rows.length else t.rows.length + 1 := by
  split_ifs with h
  · have := congrArg List.length (Table.keys_put_of_mem (v := v) h)
    simpa [Table.keys] using this
  · rw [Table.put_rows_of_notMem h, List.length_append]
    rfl

theorem length_deleteWhere_le {t : Leases} (p : Text × Time → Bool) :
    (t.deleteWhere p).rows.length ≤ t.rows.length := List.length_filter_le _ _

theorem keys_deleteWhere {t : Leases} (holder : Text) :
    (without t holder).keys = t.keys.filter fun x => !decide (x = holder) := by
  unfold Table.keys without Table.deleteWhere
  rw [List.filter_map]
  rfl

/-! ### Who is next -/

/-- **A grant.** The holder has a lease, or fewer waiters come before it than slots are free. -/
theorem grants_iff : slots.grants max holder = true ↔
    (slots.holders.get? holder).isSome ∨ slots.ahead holder < max - slots.holders.rows.length := by
  unfold grants
  rw [Bool.or_eq_true, Bool.and_eq_true, decide_eq_true_iff, decide_eq_true_iff]
  refine or_congr_right ⟨And.right, fun h => ⟨?_, h⟩⟩
  exact Nat.lt_of_sub_pos (Nat.zero_lt_of_lt h)

/-- The waiter is in line, and the free slots reach to it. -/
def Next (slots : MemorySlots) (max : ℕ) (w : Text) : Prop :=
  w ∈ slots.queue.keys ∧ slots.queue.keys.idxOf w < max - slots.holders.rows.length

theorem Next.grants (h : slots.Next max w) : slots.grants max w = true := by
  rw [grants_iff, ahead, if_pos h.1]
  exact .inr h.2

/-- As time passes. -/
theorem Next.drop (h : slots.Next max w) (hw : w ∈ (slots.drop later).queue.keys) :
    (slots.drop later).Next max w := by
  have hfree : max - slots.holders.rows.length ≤ max - (slots.drop later).holders.rows.length :=
    Nat.sub_le_sub_left (length_deleteWhere_le _) _
  exact ⟨hw, (idxOf_map_filter_le _ _ slots.queue.unique hw).trans_lt (h.2.trans_le hfree)⟩

/-- As another waiter leaves the line. -/
theorem Next.without (h : slots.Next max w) {x : Text} (hx : x ≠ w) {holders : Leases}
    (hlength : holders.rows.length ≤ slots.holders.rows.length) :
    Next ⟨holders, MemorySlots.without slots.queue x⟩ max w := by
  unfold Next
  rw [keys_deleteWhere]
  refine ⟨List.mem_filter.mpr ⟨h.1, by simpa using Ne.symm hx⟩, ?_⟩
  have hle := idxOf_filter_le (l := slots.queue.keys) (a := w) (fun y => !decide (y = x))
    (by simpa using Ne.symm hx)
  exact hle.trans_lt (h.2.trans_le (Nat.sub_le_sub_left hlength _))

/-- As another holder asks for a slot: a grant to it leaves enough for the waiter. -/
theorem Next.acquire (h : slots.Next options.max w) {x : Text} (hx : x ≠ w) :
    (slots.acquire options x now).Next options.max w := by
  unfold MemorySlots.acquire
  split_ifs with hgrant
  · by_cases hheld : x ∈ slots.holders.keys
    · refine h.without hx (le_of_eq ?_)
      rw [length_put, if_pos hheld]
    · have hfree : slots.ahead x < options.max - slots.holders.rows.length := by
        rcases grants_iff.mp hgrant with hsome | hfree
        · exact absurd (Table.get?_isSome_iff.mp hsome) hheld
        · exact hfree
      have hline := h.2
      unfold Next
      dsimp only
      rw [keys_deleteWhere, length_put, if_neg hheld]
      refine ⟨List.mem_filter.mpr ⟨h.1, by simpa using Ne.symm hx⟩, ?_⟩
      have hle := idxOf_filter_le (l := slots.queue.keys) (a := w) (fun y => !decide (y = x))
        (by simpa using Ne.symm hx)
      unfold ahead at hfree
      split_ifs at hfree with hmem
      · rcases lt_or_ge (slots.queue.keys.idxOf x) (slots.queue.keys.idxOf w) with hlt | hge
        · have := idxOf_filter_lt (Ne.symm hx) hlt
          omega
        · have hne : slots.queue.keys.idxOf x ≠ slots.queue.keys.idxOf w := fun heq =>
            hx ((List.idxOf_inj hmem).mp heq)
          omega
      · have hlast : slots.queue.keys.idxOf w < slots.queue.rows.length := by
          rw [← List.length_map (f := Prod.fst)]
          exact List.idxOf_lt_length_of_mem h.1
        omega
  · unfold Next
    dsimp only
    by_cases hmem : x ∈ slots.queue.keys
    · rw [Table.keys_put_of_mem hmem]
      exact h
    · rw [Table.keys_put_of_notMem hmem]
      refine ⟨List.mem_append_left _ h.1, ?_⟩
      rw [List.idxOf_append_of_mem h.1]
      exact h.2

end MemorySlots

/-! ## The calls -/

namespace MemorySlotSemaphore

variable {m : MemorySlotSemaphore} {key holder k : Text} {now later : Time} {options : SlotOptions}

/-- What has not lapsed of the slots of a key. -/
def slotsAt (m : MemorySlotSemaphore) (key : Text) (now : Time) : MemorySlots :=
  ((m.get? key).getD .none).drop now

theorem slotsAt_drop (hle : now ≤ later) : (slotsAt m key now).drop later = slotsAt m key later :=
  MemorySlots.drop_drop hle

theorem slotsAt_put (slots : MemorySlots) : slotsAt (m.put key slots) k now =
    if k = key then slots.drop now else slotsAt m k now := by
  unfold slotsAt
  rw [Table.get?_put]
  split_ifs <;> rfl

/-- A key that is forgotten had nothing left. -/
theorem slotsAt_tidied (slots : MemorySlots) : slotsAt (tidied m key slots) k now =
    if k = key then slots.drop now else slotsAt m k now := by
  unfold tidied
  split_ifs with hempty hk hk
  · unfold slotsAt
    rw [Table.get?_deleteWhere, hk]
    obtain ⟨⟨hrows, hu⟩, ⟨qrows, hv⟩⟩ := slots
    obtain ⟨rfl, rfl⟩ := hempty
    cases m.get? key with
    | none => rfl
    | some s => simp [Option.filter_some, MemorySlots.none, Table.empty]
  · unfold slotsAt
    rw [Table.get?_deleteWhere]
    cases m.get? k with
    | none => rfl
    | some s => simp [Option.filter_some, hk]
  · rw [slotsAt_put, if_pos hk]
  · rw [slotsAt_put, if_neg hk]

theorem slotsAt_acquire : slotsAt (acquire m key holder now options).2 k now =
    if k = key then (slotsAt m k now).acquire options holder now else slotsAt m k now := by
  unfold acquire
  dsimp only
  rw [slotsAt_put]
  split_ifs with hk
  · rw [hk]
    exact MemorySlots.drop_acquire options holder
  · rfl

theorem renew_fst {leaseMs : ℕ} : (renew m key holder now leaseMs).1 =
    ((slotsAt m key now).holders.get? holder).isSome := by
  unfold renew slotsAt
  cases m.get? key with
  | none => rfl
  | some slots =>
    rw [Option.elim_some, Option.getD_some]
    dsimp only
    split_ifs with h
    · exact h.symm
    · rw [Bool.not_eq_true] at h
      exact h.symm

theorem slotsAt_renew {leaseMs : ℕ} (hms : 1 ≤ leaseMs) :
    slotsAt (renew m key holder now leaseMs).2 k now =
      if k = key ∧ ((slotsAt m key now).holders.get? holder).isSome then
        { slotsAt m key now with
          holders := (slotsAt m key now).holders.put holder (now + leaseMs) }
      else slotsAt m k now := by
  unfold renew
  cases hget : m.get? key with
  | none =>
    rw [Option.elim_none, if_neg]
    rintro ⟨_, hsome⟩
    rw [slotsAt, hget] at hsome
    cases hsome
  | some slots =>
    have hslots : slotsAt m key now = slots.drop now := by rw [slotsAt, hget]; rfl
    rw [Option.elim_some, hslots]
    dsimp only
    obtain ⟨hh, hq⟩ := @MemorySlots.lt_of_mem_drop slots now
    split_ifs with hsome hk hk
    · rw [slotsAt_tidied, if_pos hk.1]
      exact MemorySlots.drop_eq_self (MemorySlots.lt_of_mem_put hms hh) hq
    · rw [slotsAt_tidied, if_neg fun h => hk ⟨h, hsome⟩]
    · exact absurd hk.2 hsome
    · rw [slotsAt_tidied]
      split_ifs with hkey
      · rw [hkey, hslots, MemorySlots.drop_drop le_rfl]
      · rfl

theorem without_drop (slots : MemorySlots) : MemorySlots.drop
    ⟨MemorySlots.without slots.holders holder, MemorySlots.without slots.queue holder⟩ now =
      ⟨MemorySlots.without (slots.drop now).holders holder,
        MemorySlots.without (slots.drop now).queue holder⟩ := by
  have hcomm : ∀ t : Leases, ((MemorySlots.without t holder).deleteWhere fun e =>
      decide (e.2 ≤ now)) = MemorySlots.without (t.deleteWhere fun e => decide (e.2 ≤ now)) holder := by
    intro t
    refine Table.ext_rows ?_
    show List.filter _ (List.filter _ _) = List.filter _ (List.filter _ _)
    rw [List.filter_filter, List.filter_filter]
    refine List.filter_congr fun e _ => Bool.and_comm _ _
  exact congrArg₂ MemorySlots.mk (hcomm _) (hcomm _)

theorem slotsAt_release : slotsAt (release m key holder) k now =
    if k = key then ⟨MemorySlots.without (slotsAt m key now).holders holder,
      MemorySlots.without (slotsAt m key now).queue holder⟩ else slotsAt m k now := by
  unfold release
  cases hget : m.get? key with
  | none =>
    rw [Option.elim_none]
    split_ifs with hk
    · rw [hk, slotsAt, hget]
      rfl
    · rfl
  | some slots =>
    have hslots : slotsAt m key now = slots.drop now := by rw [slotsAt, hget]; rfl
    rw [Option.elim_some, slotsAt_tidied, without_drop, hslots]

theorem slotsAt_prune : slotsAt (prune m now) k now = slotsAt m k now := by
  unfold prune slotsAt
  rw [Table.get?_deleteWhere, Table.get?_mapValues]
  cases m.get? k with
  | none => rfl
  | some slots =>
    rw [Option.map_some, Option.filter_some]
    split_ifs with h
    · exact MemorySlots.drop_drop le_rfl
    · rw [Bool.not_eq_true', decide_eq_false_iff_not, not_not] at h
      rw [Option.getD_some, Option.getD_none]
      refine (congrArg₂ MemorySlots.mk (Table.ext_rows ?_) (Table.ext_rows ?_))
      · exact h.1.symm
      · exact h.2.symm

/-! ## Every run -/

/-- At most `max` leases, and nobody who waits holds one. -/
structure Sound (max : ℕ) (now : Time) (m : MemorySlotSemaphore) : Prop where
  bounded : ∀ key, (slotsAt m key now).holders.rows.length ≤ max
  apart : ∀ key x, x ∈ (slotsAt m key now).queue.keys → x ∉ (slotsAt m key now).holders.keys

variable {max : ℕ}

theorem mem_keys_drop {t : Leases} {x : Text} {p : Text × Time → Bool}
    (h : x ∈ (t.deleteWhere p).keys) : x ∈ t.keys := (List.filter_sublist.map _).subset h

theorem Sound.mono (h : Sound max now m) (hle : now ≤ later) : Sound max later m := by
  constructor
  · intro key
    rw [← slotsAt_drop hle]
    exact (MemorySlots.length_deleteWhere_le _).trans (h.bounded key)
  · intro key x hx hh
    rw [← slotsAt_drop hle] at hx hh
    exact h.apart key x (mem_keys_drop hx) (mem_keys_drop hh)

/-- A change of the slots of one key. -/
theorem Sound.of_key (h : Sound max now m) {m' : MemorySlotSemaphore} (key : Text)
    (slots : MemorySlots) (hm : ∀ k, slotsAt m' k now = if k = key then slots else slotsAt m k now)
    (hbounded : slots.holders.rows.length ≤ max)
    (hapart : ∀ x, x ∈ slots.queue.keys → x ∉ slots.holders.keys) : Sound max now m' := by
  constructor
  · intro k
    rw [hm]
    split_ifs
    · exact hbounded
    · exact h.bounded k
  · intro k
    rw [hm]
    split_ifs
    · exact hapart
    · exact h.apart k

theorem Sound.acquire (options : SlotOptions) (h : Sound options.max now m) :
    Sound options.max now (acquire m key holder now options).2 := by
  refine h.of_key key ((slotsAt m key now).acquire options holder now) (fun k => ?_) ?_ ?_
  · rw [slotsAt_acquire]
    split_ifs with hk
    · rw [hk]
    · rfl
  · unfold MemorySlots.acquire
    split_ifs with hgrant
    · dsimp only
      rw [MemorySlots.length_put]
      split_ifs with hheld
      · exact h.bounded key
      · rcases MemorySlots.grants_iff.mp hgrant with hsome | hfree
        · exact absurd (Table.get?_isSome_iff.mp hsome) hheld
        · omega
    · exact h.bounded key
  · intro x hx
    unfold MemorySlots.acquire at hx ⊢
    split_ifs at hx ⊢ with hgrant
    · dsimp only at hx ⊢
      rw [MemorySlots.keys_deleteWhere, List.mem_filter] at hx
      rw [Table.mem_keys_put, not_or]
      exact ⟨by simpa using hx.2, h.apart key x hx.1⟩
    · dsimp only at hx ⊢
      rcases Table.mem_keys_put.mp hx with rfl | hx
      · intro hmem
        exact hgrant (MemorySlots.grants_iff.mpr (.inl (Table.get?_isSome_iff.mpr hmem)))
      · exact h.apart key x hx

theorem Sound.renew (h : Sound max now m) {leaseMs : ℕ} (hms : 1 ≤ leaseMs) :
    Sound max now (renew m key holder now leaseMs).2 := by
  by_cases hsome : ((slotsAt m key now).holders.get? holder).isSome
  · have hmem := Table.get?_isSome_iff.mp hsome
    refine h.of_key key { slotsAt m key now with
      holders := (slotsAt m key now).holders.put holder (now + leaseMs) } (fun k => ?_) ?_
      fun x hx => ?_
    · rw [slotsAt_renew hms]
      simp only [hsome, and_true]
    · dsimp only
      rw [MemorySlots.length_put, if_pos hmem]
      exact h.bounded key
    · dsimp only
      rw [Table.keys_put_of_mem hmem]
      exact h.apart key x hx
  · refine h.of_key key (slotsAt m key now) (fun k => ?_) (h.bounded key) (h.apart key)
    rw [slotsAt_renew hms, if_neg fun hand => hsome hand.2]
    split_ifs with hk
    · rw [hk]
    · rfl

theorem Sound.release (h : Sound max now m) : Sound max now (release m key holder) := by
  refine h.of_key key _ (fun _ => slotsAt_release) ?_ fun x hx hh => ?_
  · exact (MemorySlots.length_deleteWhere_le _).trans (h.bounded key)
  · exact h.apart key x (mem_keys_drop hx) (mem_keys_drop hh)

theorem Sound.prune (h : Sound max now m) : Sound max now (prune m now) :=
  ⟨fun key => by rw [slotsAt_prune]; exact h.bounded key,
    fun key => by rw [slotsAt_prune]; exact h.apart key⟩

/-- **Every call keeps to the limit.** -/
theorem Sound.call {c : SlotCall} (h : Sound max c.time m) : Sound max c.time (call max m c).2 := by
  unfold MemorySlotSemaphore.call
  cases c.op with
  | acquire key holder leaseMs queueTtlMs lease ttl =>
    exact Sound.acquire ⟨max, leaseMs, queueTtlMs, lease, ttl⟩ h
  | renew key holder leaseMs lease => exact h.renew lease
  | release key holder => exact h.release
  | prune => exact h.prune

/-! ### A waiter whose turn it is -/

/-- The waiter keeps its place until `place`, and the free slots reach to it. -/
def Reaches (max : ℕ) (key w : Text) (place now : Time) (m : MemorySlotSemaphore) : Prop :=
  (slotsAt m key now).queue.get? w = some place ∧ (slotsAt m key now).Next max w

variable {w : Text} {place : Time}

theorem get?_drop {t : Leases} {x : Text} :
    (t.deleteWhere fun e => decide (e.2 ≤ now)).get? x =
      (t.get? x).filter fun u => decide (now < u) := by
  rw [Table.get?_deleteWhere]
  congr 1
  funext u
  by_cases h : u ≤ now
  · simp [h]
  · simp [not_le.mp h]

theorem Reaches.mono (h : Reaches max key w place now m) (hle : now ≤ later) (hlt : later < place) :
    Reaches max key w place later m := by
  have hget : (slotsAt m key later).queue.get? w = some place := by
    rw [← slotsAt_drop hle, MemorySlots.drop, get?_drop, h.1, Option.filter_some,
      if_pos (decide_eq_true hlt)]
  refine ⟨hget, ?_⟩
  have hmem := Table.get?_isSome_iff.mp (Option.isSome_of_eq_some hget)
  rw [← slotsAt_drop hle] at hmem ⊢
  exact h.2.drop hmem

/-- **Others do not take the turn of a waiter.** -/
theorem Reaches.call {c : SlotCall} (h : Reaches max key w place c.time m)
    (hby : c.op.isBy key w = false) : Reaches max key w place c.time (call max m c).2 := by
  unfold Reaches MemorySlotSemaphore.call
  cases hop : c.op with
  | acquire k holder leaseMs queueTtlMs lease ttl =>
    dsimp only
    rw [slotsAt_acquire]
    split_ifs with hk
    · subst hk
      have hx : holder ≠ w := by
        rintro rfl
        simp [hop, SlotOp.isBy] at hby
      have hnext : (slotsAt m key c.time).Next
          (SlotOptions.max ⟨max, leaseMs, queueTtlMs, lease, ttl⟩) w := h.2
      refine ⟨?_, hnext.acquire hx⟩
      unfold MemorySlots.acquire
      split_ifs
      · rw [MemorySlots.without, Table.get?_deleteWhere, h.1, Option.filter_some,
          if_pos (by simpa using Ne.symm hx)]
      · rw [Table.get?_put_ne (Ne.symm hx)]
        exact h.1
    · exact h
  | renew k holder leaseMs lease =>
    dsimp only
    rw [slotsAt_renew lease]
    split_ifs with hk
    · obtain ⟨rfl, hsome⟩ := hk
      refine ⟨h.1, h.2.1, ?_⟩
      dsimp only
      rw [MemorySlots.length_put, if_pos (Table.get?_isSome_iff.mp hsome)]
      exact h.2.2
    · exact h
  | release k holder =>
    dsimp only
    rw [slotsAt_release]
    split_ifs with hk
    · subst hk
      have hx : holder ≠ w := by
        rintro rfl
        simp [hop, SlotOp.isBy] at hby
      refine ⟨?_, h.2.without hx (MemorySlots.length_deleteWhere_le _)⟩
      dsimp only
      rw [MemorySlots.without, Table.get?_deleteWhere, h.1, Option.filter_some,
        if_pos (by simpa using Ne.symm hx)]
    · exact h
  | prune =>
    dsimp only
    rw [slotsAt_prune]
    exact h

theorem reaches_final {calls : List SlotCall} (h : Reaches max key w place now m)
    (ht : Ticks SlotCall.time now calls) (hlt : lastTime SlotCall.time now calls < place)
    (hby : ∀ c ∈ calls, c.op.isBy key w = false) :
    Reaches max key w place (lastTime SlotCall.time now calls) (final (call max) m calls) := by
  induction calls generalizing now m with
  | nil => exact h
  | cons c calls ih =>
    have hc : c.time < place := lt_of_le_of_lt (le_lastTime ht.2) hlt
    exact ih ((h.mono ht.1 hc).call (hby c List.mem_cons_self)) ht.2 hlt
      fun d hd => hby d (List.mem_cons_of_mem _ hd)

end MemorySlotSemaphore

end BunMail.Utils.Slots
