import BunMail.Lib.Run
import BunMail.Utils.WindowViews

/-!
# Both counters do what their live windows say

The memory counter numbers its windows.  In Redis a hash is written whole: it has a count, a window
id and an expiry, and so stands for a window.
-/

namespace BunMail.Utils.Windows

/-! ## In memory -/

namespace MemoryWindowCounter

variable {c : MemoryWindowCounter} {key k : Text} {now later : Time} {e : MemoryWindow}

/-- The windows that have not ended. -/
def view (c : MemoryWindowCounter) (now : Time) : View :=
  fun key => (c.entries.get? key).filter fun e => decide (now < e.expiresAt)

/-- The numbers handed out. -/
def used (c : MemoryWindowCounter) (id : Text) : Prop :=
  ∃ n ≤ c.memoryWindowSeq, id = Text.decimal n

/-- Counts are not negative, and ids were handed out. -/
def Inv (now : Time) (c : MemoryWindowCounter) : Prop :=
  ∀ k w, c.view now k = some w → 0 ≤ w.count ∧ c.used w.id

theorem lt_of_view (h : c.view now k = some e) : now < e.expiresAt :=
  of_decide_eq_true (Option.filter_eq_some_iff.mp h).2

theorem live_fst : (c.live key now).1 = c.view now key := by
  unfold live view
  cases c.entries.get? key with
  | none => rfl
  | some e =>
    rw [Option.elim_some, Option.filter_some]
    by_cases h : e.expiresAt ≤ now
    · rw [if_pos h, if_neg fun hd => absurd (of_decide_eq_true hd) (not_lt.mpr h)]
    · rw [if_neg h, if_pos (decide_eq_true (not_le.mp h))]

theorem view_set (h : now < e.expiresAt) (k : Text) :
    (c.set key e).view now k = if k = key then some e else c.view now k := by
  unfold view set
  dsimp only
  rw [Table.get?_put]
  split_ifs
  · rw [Option.filter_some, if_pos (decide_eq_true h)]
  · rfl

theorem view_drop (k : Text) :
    (c.drop key).view now k = if k = key then none else c.view now k := by
  unfold view drop
  dsimp only
  rw [Table.get?_deleteWhere]
  cases c.entries.get? k with
  | none => simp
  | some e => by_cases h : k = key <;> simp [h, Option.filter_some]

/-- Reading a key drops only what has ended. -/
theorem view_live : (c.live key now).2.view now = c.view now := by
  unfold live
  cases hget : c.entries.get? key with
  | none => rfl
  | some e =>
    rw [Option.elim_some]
    split_ifs with h
    · funext k
      rw [view_drop]
      split_ifs with hk
      · subst hk
        rw [view, hget, Option.filter_some, if_neg fun hd =>
          absurd (of_decide_eq_true hd) (not_lt.mpr h)]
      · rfl
    · rfl

theorem seq_live : (c.live key now).2.memoryWindowSeq = c.memoryWindowSeq := by
  unfold live
  cases c.entries.get? key with
  | none => rfl
  | some e =>
    rw [Option.elim_some]
    split_ifs <;> rfl

theorem used_live {id : Text} : (c.live key now).2.used id ↔ c.used id := by
  rw [used, used, seq_live]

theorem Inv.live (h : Inv now c) : Inv now (c.live key now).2 := by
  intro k w hw
  rw [view_live] at hw
  rw [used_live]
  exact h k w hw

/-- A window of the key is replaced by one with a used id. -/
theorem Inv.set (h : Inv now c) (he : now < e.expiresAt) (hcount : 0 ≤ e.count)
    (hid : c.used e.id) : Inv now (c.set key e) := by
  intro k w hw
  rw [view_set he] at hw
  split_ifs at hw
  · cases hw
    exact ⟨hcount, hid⟩
  · exact h k w hw

theorem check_counter (options : WindowOptions) (acc : Checked MemoryWindowCounter) (key : Text) :
    (check now options acc key).counter = (acc.counter.live key now).2 := by
  unfold check
  dsimp only
  split_ifs <;> rfl

theorem check_step (options : WindowOptions) (acc : Checked MemoryWindowCounter) (key : Text) :
    CheckStep (view · now) options now acc (check now options acc key) key := by
  unfold check
  dsimp only
  rw [live_fst]
  by_cases h : options.max < (acc.counter.view now key).elim 0 (·.count) + options.weight
  · rw [if_pos h]
    have hp : passes options (acc.counter.view now) key = true := decide_eq_true h
    exact ⟨view_live, by simp [hp], by simp only [hp, if_true]; rfl⟩
  · rw [if_neg h]
    have hp : passes options (acc.counter.view now) key = false := decide_eq_false h
    exact ⟨view_live, by simp [hp], by simp [hp]⟩

/-- The counter of the loop has only gone on from the counter of the take. -/
def Since (c : MemoryWindowCounter) (now : Time) (d : MemoryWindowCounter) : Prop :=
  c.memoryWindowSeq ≤ d.memoryWindowSeq ∧ Inv now d

theorem Since.live {d : MemoryWindowCounter} (h : Since c now d) :
    Since c now (d.live key now).2 := ⟨h.1.trans (le_of_eq seq_live.symm), h.2.live⟩

/-- The entry a count goes to is live, and its id is handed out. -/
theorem opened_spec {d : MemoryWindowCounter} (key : Text) (h : Since c now d) {windowMs : ℕ}
    (hw : 1 ≤ windowMs) :
    (opened now windowMs (d.live key now)).1 =
        (d.view now key).getD ⟨0, now + windowMs, false, Text.decimal (d.memoryWindowSeq + 1)⟩ ∧
      now < (opened now windowMs (d.live key now)).1.expiresAt ∧
      0 ≤ (opened now windowMs (d.live key now)).1.count ∧
      (opened now windowMs (d.live key now)).2.used (opened now windowMs (d.live key now)).1.id ∧
      (opened now windowMs (d.live key now)).2.view now = d.view now ∧
      Since c now (opened now windowMs (d.live key now)).2 := by
  unfold opened
  rw [live_fst, seq_live]
  cases hv : d.view now key with
  | none =>
    refine ⟨rfl, Nat.lt_add_of_pos_right hw, le_rfl, ⟨_, le_rfl, rfl⟩, view_live, ?_, ?_⟩
    · exact h.1.trans (Nat.le_succ _)
    · intro k w hw
      have hview : (d.live key now).2.view now = d.view now := view_live
      obtain ⟨hcount, n, hn, hid⟩ := h.2 k w (hview ▸ hw)
      exact ⟨hcount, n, hn.trans (Nat.le_succ _), hid⟩
  | some e =>
    obtain ⟨hcount, hid⟩ := h.2 key e hv
    exact ⟨rfl, lt_of_view hv, hcount, used_live.mpr hid, view_live, h.live⟩

theorem count_step {windowMs : ℕ} (hw : 1 ≤ windowMs) {add : ℤ}
    (acc : Counted MemoryWindowCounter) (key : Text) (h : Since c now acc.counter) :
    CountStep (view · now) windowMs now add (fun id => ¬ c.used id) acc
      (count now windowMs add acc key) key ∧
      Since c now (count now windowMs add acc key).counter := by
  have hfresh : ¬ c.used (Text.decimal (acc.counter.memoryWindowSeq + 1)) := by
    rintro ⟨n, hn, heq⟩
    have := Text.decimal_injective heq
    have := h.1
    omega
  unfold count
  dsimp only
  by_cases hadd : 0 < add
  · rw [if_pos hadd]
    obtain ⟨hentry, hlt, hcount, hid, hview, hsince⟩ := opened_spec key h hw
    set entry := opened now windowMs (acc.counter.live key now)
    have hset : ∀ e : MemoryWindow, now < e.expiresAt → ∀ k, (entry.2.set key e).view now k =
        if k = key then some e else acc.counter.view now k := by
      intro e he k
      rw [view_set he, hview]
    replace hset := hset { entry.1 with count := entry.1.count + add } hlt
    have hself := (hset key).trans (if_pos rfl)
    refine ⟨⟨⟨_, hfresh, ?_⟩, fun k hk => (hset k).trans (if_neg hk), ?_, ?_⟩, hsince.1, ?_⟩
    · rw [hself, counted, if_pos hadd, hentry]
    · rw [hself]
      rfl
    · rw [hself]
      rfl
    · exact hsince.2.set hlt (by dsimp only; omega) hid
  · rw [if_neg hadd, live_fst]
    refine ⟨⟨⟨_, hfresh, ?_⟩, fun k _ => ?_, ?_, ?_⟩, h.live⟩
    · rw [view_live, counted, if_neg hadd]
    · rw [view_live]
    · rw [view_live]
    · rw [view_live]

theorem take_spec (h : Inv now c) (keys : DistinctKeys) (options : WindowOptions) :
    Takes options now keys.1 (fun id => ¬ c.used id) (c.view now)
      ((c.take now keys options).2.view now) (c.take now keys options).1 ∧
      Since c now (c.take now keys options).2 := by
  obtain ⟨hview, hlimited, hretry, hsince⟩ := check_fold (view · now) (Since c now) keys.1
    (fun acc key hacc => ⟨check_step options acc key, by
      rw [check_counter]
      exact hacc.live⟩) ⟨false, 0, c⟩ ⟨le_rfl, h⟩
  rw [Bool.false_or] at hlimited
  unfold take
  dsimp only
  set checked := keys.1.foldl (check now options) ⟨false, 0, c⟩
  have hadd : (if checked.limited then options.refusedWeight else options.weight) =
      added options (c.view now) keys.1 := by
    rw [hlimited]
    rfl
  rw [hadd]
  obtain ⟨hself, hother, hcount, hwindows, hsince'⟩ := count_fold (view · now)
    (Since c now) (fun acc key hacc => count_step options.windowMs_pos acc key hacc) keys.2
    ⟨0, Table.empty, checked.counter⟩ hsince fun k _ => List.not_mem_nil
  refine ⟨⟨hlimited, ?_, hcount, fun k hk => ?_, fun k hk => ?_, hwindows⟩, hsince'⟩
  · rw [hlimited, hretry]
    rfl
  · obtain ⟨id, hid, heq⟩ := hself k hk
    exact ⟨id, hid, by rw [heq, hview]⟩
  · rw [hother k hk, hview]

/-- Rewriting the live window of the key. -/
theorem view_live_set {w : MemoryWindow} (hw : c.view now key = some w) {f : MemoryWindow → MemoryWindow}
    (hf : (f w).expiresAt = w.expiresAt) (k : Text) :
    ((c.live key now).2.set key (f w)).view now k =
      if k = key then (c.view now k).map f else c.view now k := by
  rw [view_set (hf ▸ lt_of_view hw), view_live]
  split_ifs with hk
  · rw [hk, hw]
    rfl
  · rfl

theorem refund_view (id : Text) (k : Text) : (c.refund key now id).view now k =
    if k = key then (c.view now k).map (refunded id) else c.view now k := by
  unfold refund
  dsimp only
  rw [live_fst]
  cases hw : c.view now key with
  | none =>
    rw [Option.elim_none, view_live]
    split_ifs with hk
    · rw [hk, hw]
      rfl
    · rfl
  | some w =>
    rw [Option.elim_some]
    have hset := view_live_set (f := refunded id) hw (by unfold refunded; split_ifs <;> rfl) k
    split_ifs at hset ⊢ with hid hk hk
    · rw [← hset, refunded, if_pos hid]
    · rw [← hset, refunded, if_pos hid]
    · rw [view_live, hk, hw, Option.map_some, refunded, if_neg hid]
    · rw [view_live]

theorem markOnce_spec : (c.markOnce key now).1 = (c.view now key).elim false (fun w => !w.marked) ∧
    ∀ k, (c.markOnce key now).2.view now k =
      if k = key then (c.view now k).map fun w => { w with marked := true } else c.view now k := by
  unfold markOnce
  dsimp only
  rw [live_fst]
  cases hw : c.view now key with
  | none =>
    refine ⟨rfl, fun k => ?_⟩
    rw [Option.elim_none, view_live]
    split_ifs with hk
    · rw [hk, hw]
      rfl
    · rfl
  | some w =>
    rw [Option.elim_some, Option.elim_some]
    cases hm : w.marked with
    | true =>
      refine ⟨rfl, fun k => ?_⟩
      rw [if_pos rfl, view_live]
      split_ifs with hk
      · rw [hk, hw, Option.map_some, ← hm]
      · rfl
    | false =>
      rw [if_neg Bool.false_ne_true]
      exact ⟨rfl, view_live_set (f := fun w => { w with marked := true }) hw rfl⟩

theorem delete_view (keys : List Text) (k : Text) :
    (c.delete keys).view now k = if k ∈ keys then none else c.view now k := by
  unfold delete
  induction keys generalizing c with
  | nil => rfl
  | cons key keys ih =>
    rw [List.foldl_cons, ih, view_drop]
    by_cases hk : k = key <;> simp [hk]

theorem prune_view : (c.prune now).view now = c.view now := by
  funext k
  unfold view prune
  dsimp only
  rw [Table.get?_deleteWhere, Option.filter_filter]
  congr 1
  funext e
  by_cases h : now < e.expiresAt <;> simp [h]

/-- What a call other than a take leaves. -/
theorem seq_call (op : Op) (hop : ∀ keys options, op ≠ .take keys options) :
    (c.call now op).2.memoryWindowSeq = c.memoryWindowSeq := by
  cases op with
  | take keys options => exact absurd rfl (hop keys options)
  | peek key => exact seq_live
  | refund key id =>
    unfold call refund
    dsimp only
    cases (c.live key now).1 with
    | none => exact seq_live
    | some e =>
      rw [Option.elim_some]
      split_ifs <;> exact seq_live
  | delete keys =>
    have hdrop : ∀ (d : MemoryWindowCounter) key, d.memoryWindowSeq = c.memoryWindowSeq →
        (d.drop key).memoryWindowSeq = c.memoryWindowSeq := fun _ _ h => h
    exact Run.foldl_invariant _ hdrop rfl keys
  | markOnce key =>
    unfold call markOnce
    dsimp only
    cases (c.live key now).1 with
    | none => exact seq_live
    | some e =>
      rw [Option.elim_some]
      split_ifs <;> exact seq_live
  | prune => rfl

theorem effect (h : Inv now c) (op : Op) : Effect (fun id => ¬ c.used id) now (c.view now) op
    (c.call now op).1 ((c.call now op).2.view now) := by
  cases op with
  | take keys options => exact ⟨_, rfl, (take_spec h keys options).1⟩
  | peek key =>
    refine ⟨?_, view_live⟩
    rw [← live_fst]
    rfl
  | refund key id => exact ⟨rfl, refund_view id⟩
  | delete keys => exact ⟨rfl, delete_view keys⟩
  | markOnce key => exact ⟨congrArg _ markOnce_spec.1, markOnce_spec.2⟩
  | prune => exact ⟨rfl, prune_view⟩

theorem Inv.call (h : Inv now c) (op : Op) : Inv now (c.call now op).2 := by
  by_cases hop : ∃ keys options, op = .take keys options
  · obtain ⟨keys, options, rfl⟩ := hop
    exact (take_spec h keys options).2.2
  · have hop : ∀ keys options, op ≠ .take keys options := fun keys options heq =>
      hop ⟨keys, options, heq⟩
    intro k w' hw
    obtain ⟨w, hv, hid, _, hcount⟩ := (effect h op).origin hop hw
    obtain ⟨hnonneg, n, hn, hw⟩ := h k w hv
    refine ⟨?_, n, hn.trans (le_of_eq (seq_call op hop).symm), hid.trans hw⟩
    rcases hcount with hcount | ⟨_, hcount⟩
    · exact hcount ▸ hnonneg
    · exact hcount ▸ le_max_left _ _

theorem used_call (h : Inv now c) {id : Text} (op : Op) (hid : c.used id) :
    (c.call now op).2.used id := by
  obtain ⟨n, hn, rfl⟩ := hid
  by_cases hop : ∃ keys options, op = .take keys options
  · obtain ⟨keys, options, rfl⟩ := hop
    exact ⟨n, hn.trans (take_spec h keys options).2.1, rfl⟩
  · exact ⟨n, hn.trans (le_of_eq (seq_call op fun keys options heq =>
      hop ⟨keys, options, heq⟩).symm), rfl⟩

theorem inv_empty : Inv now ⟨Table.empty, 0⟩ := fun k w hw => by cases hw

/-- **The memory counter is lawful.** -/
def lawful : Lawful call where
  view := view
  used := used
  Inv := Inv
  view_later hle k := (filter_later hle _).symm
  inv_later hle h k w hw := by
    rw [view, ← filter_later hle] at hw
    exact h k w (Option.filter_eq_some_iff.mp hw).1
  sound h hw := ⟨(h _ _ hw).1, lt_of_view hw, (h _ _ hw).2⟩
  effect op h := effect h op
  inv op h := h.call op
  used_call op h hid := used_call h op hid

end MemoryWindowCounter

/-! ## In Redis -/

open Keyspace

/-- The hash that stands for a window. -/
def hashOf (w : MemoryWindow) : Expiring WindowHash :=
  ⟨⟨some w.count, w.marked, some w.id⟩, some w.expiresAt⟩

namespace RedisWindowCounter

variable {r : RedisWindowCounter} {key k : Text} {now later : Time} {w : MemoryWindow}

/-- The windows that the hashes stand for. -/
def stored (r : RedisWindowCounter) (key : Text) : Option MemoryWindow :=
  (r.get? key).map fun e =>
    ⟨e.value.c.getD 0, e.expiresAt.getD 0, e.value.m, e.value.w.getD []⟩

/-- The windows that have not ended. -/
def view (r : RedisWindowCounter) (now : Time) : View :=
  fun key => (stored r key).filter fun w => decide (now < w.expiresAt)

/-- Every hash stands for a window. -/
def Whole (r : RedisWindowCounter) : Prop := ∀ k, r.get? k = (stored r k).map hashOf

theorem lt_of_view (h : view r now k = some w) : now < w.expiresAt :=
  of_decide_eq_true (Option.filter_eq_some_iff.mp h).2

/-- What is seen of a key is its live window. -/
theorem Whole.seen? (h : Whole r) (key : Text) (now : Time) :
    seen? gone r key now = (view r now key).map hashOf := by
  unfold Keyspace.seen? view
  rw [h key]
  cases stored r key with
  | none => rfl
  | some w =>
    rw [Option.map_some, Option.filter_some, Option.filter_some]
    by_cases hlt : now < w.expiresAt <;> simp [hashOf, gone, hlt, not_le.mpr, not_lt.mp]

theorem Whole.value? (h : Whole r) (key : Text) (now : Time) :
    value? gone r key now = (view r now key).map fun w => (hashOf w).value := by
  rw [Keyspace.value?, h.seen?, Option.map_map]
  rfl

theorem Whole.hgetC (h : Whole r) : hgetC r key now = (view r now key).map (·.count) := by
  rw [RedisWindowCounter.hgetC, h.value?]
  cases view r now key <;> rfl

theorem Whole.hgetW (h : Whole r) : hgetW r key now = (view r now key).map (·.id) := by
  rw [RedisWindowCounter.hgetW, h.value?]
  cases view r now key <;> rfl

theorem Whole.pttl (h : Whole r) : pttl gone r key now =
    (view r now key).elim (-2) fun w => (w.expiresAt : ℤ) - now := by
  rw [Keyspace.pttl, h.seen?]
  cases view r now key <;> rfl

/-- A store that holds the hash of a window under a key, and what it held under the others. -/
theorem stored_of_get? {r' : RedisWindowCounter}
    (h : ∀ k, r'.get? k = if k = key then some (hashOf w) else r.get? k) (k : Text) :
    stored r' k = if k = key then some w else stored r k := by
  unfold stored
  rw [h]
  split_ifs <;> rfl

theorem Whole.of_get? (hr : Whole r) {r' : RedisWindowCounter}
    (h : ∀ k, r'.get? k = if k = key then some (hashOf w) else r.get? k) : Whole r' := by
  intro k
  rw [stored_of_get? h, h]
  split_ifs
  · rfl
  · exact hr k

theorem view_of_get? {r' : RedisWindowCounter}
    (h : ∀ k, r'.get? k = if k = key then some (hashOf w) else r.get? k) (hw : now < w.expiresAt)
    (k : Text) :
    view r' now k = if k = key then some w else view r now k := by
  unfold view
  rw [stored_of_get? h]
  split_ifs
  · rw [Option.filter_some, if_pos (decide_eq_true hw)]
  · rfl

/-- A command that writes the hash of a live window. -/
theorem get?_write_live (h : Whole r) (hw : view r now key = some w) (w' : MemoryWindow)
    {f : Option WindowHash → WindowHash} (hf : f (some (hashOf w).value) = (hashOf w').value)
    (he : w'.expiresAt = w.expiresAt) (k : Text) :
    (write gone r key now f).get? k = if k = key then some (hashOf w') else r.get? k := by
  rw [get?_write, h.value?, h.seen?, hw]
  split_ifs
  · rw [Option.map_some, Option.map_some, hf]
    unfold hashOf
    rw [he]
    rfl
  · rfl

theorem check_step (hr : Whole r) (options : WindowOptions) (acc : Checked RedisWindowCounter)
    (hacc : acc.counter = r) (key : Text) :
    CheckStep (view · now) options now acc (check now options acc key) key ∧
      (check now options acc key).counter = r := by
  subst hacc
  unfold check
  rw [hr.hgetC, hr.pttl]
  have hcount : ((view acc.counter now key).map (·.count)).getD 0 =
      (view acc.counter now key).elim 0 (·.count) := by
    cases view acc.counter now key <;> rfl
  rw [hcount]
  by_cases h : options.max < (view acc.counter now key).elim 0 (·.count) + options.weight
  · rw [if_pos h]
    have hp : passes options (view acc.counter now) key = true := decide_eq_true h
    have hleft : (if (view acc.counter now key).elim (-2) (fun w => (w.expiresAt : ℤ) - now) < 0
        then (options.windowMs : ℤ)
        else (view acc.counter now key).elim (-2) fun w => (w.expiresAt : ℤ) - now) =
          remaining options now (view acc.counter now) key := by
      unfold remaining
      cases hw : view acc.counter now key with
      | none => rfl
      | some w =>
        have hlt : (now : ℤ) < w.expiresAt := by exact_mod_cast lt_of_view hw
        exact if_neg (by rw [Option.elim_some]; omega)
    refine ⟨⟨rfl, by simp [hp], ?_⟩, rfl⟩
    simp only [hp, if_true]
    rw [hleft, max_def_lt]
  · rw [if_neg h]
    have hp : passes options (view acc.counter now) key = false := decide_eq_false h
    exact ⟨⟨rfl, by simp [hp], by simp [hp]⟩, rfl⟩

/-- The count of a key that is not seen: the hash is written anew, then it gets its expiry. -/
theorem increment_fresh (hr : Whole r) {windowMs : ℕ} {add : ℤ} {uuid : Text}
    (hv : view r now key = none) :
    (increment r key now windowMs add uuid).1 = add ∧
      ∀ k, (increment r key now windowMs add uuid).2.get? k =
        if k = key then some (hashOf ⟨add, now + windowMs, false, uuid⟩) else r.get? k := by
  have hseen : Keyspace.seen? gone r key now = none := by rw [hr.seen?, hv]; rfl
  have hvalue : Keyspace.value? gone r key now = none := by rw [hr.value?, hv]; rfl
  have hcounted : Keyspace.seen? gone (hincrbyC r key now add) key now =
      some ⟨⟨some add, false, none⟩, none⟩ := by
    rw [hincrbyC, seen?_write_self, hseen, hvalue]
    rfl
  have hnamed : Keyspace.seen? gone (hsetnxW (hincrbyC r key now add) key now uuid) key now =
      some ⟨⟨some add, false, some uuid⟩, none⟩ := by
    rw [hsetnxW, seen?_write_self, Keyspace.value?, hcounted]
    rfl
  unfold increment
  rw [hvalue]
  constructor
  · show (RedisWindowCounter.hgetC (hincrbyC r key now add) key now).getD 0 = add
    rw [RedisWindowCounter.hgetC, Keyspace.value?, hcounted]
    rfl
  · intro k
    simp only [Option.isNone_none, Bool.true_or, if_true]
    rw [get?_pexpire hnamed]
    split_ifs with hk
    · rfl
    · rw [hsetnxW, get?_write, if_neg hk, hincrbyC, get?_write, if_neg hk]

/-- The count of a key with a live window: the hash keeps its window's id and its expiry. -/
theorem increment_live (hr : Whole r) {windowMs : ℕ} {add : ℤ} {uuid : Text}
    (hv : view r now key = some w) :
    (increment r key now windowMs add uuid).1 = w.count + add ∧
      ∀ k, (increment r key now windowMs add uuid).2.get? k =
        if k = key then some (hashOf { w with count := w.count + add }) else r.get? k := by
  have hlt := lt_of_view hv
  have hcounted : ∀ k, (hincrbyC r key now add).get? k =
      if k = key then some (hashOf { w with count := w.count + add }) else r.get? k :=
    get?_write_live hr hv _ rfl rfl
  have hwhole := hr.of_get? hcounted
  have hview := (view_of_get? hcounted hlt key).trans (if_pos rfl)
  have hnamed : ∀ k, (hsetnxW (hincrbyC r key now add) key now uuid).get? k =
      if k = key then some (hashOf { w with count := w.count + add })
      else (hincrbyC r key now add).get? k := get?_write_live hwhole hview _ rfl rfl
  have hpttl : ¬ Keyspace.pttl gone (hsetnxW (hincrbyC r key now add) key now uuid) key now < 0 := by
    rw [(hwhole.of_get? hnamed).pttl, (view_of_get? hnamed hlt key).trans (if_pos rfl)]
    have : (now : ℤ) < w.expiresAt := by exact_mod_cast hlt
    show ¬ (w.expiresAt : ℤ) - now < 0
    omega
  unfold increment
  rw [hr.value?, hv]
  simp only [Option.map_some, Option.isNone_some, Bool.false_or, decide_eq_true_eq]
  rw [if_neg hpttl, hwhole.hgetC, hview]
  refine ⟨rfl, fun k => ?_⟩
  rw [hnamed, hcounted]
  split_ifs <;> rfl

/-- **The count of one key.** The hash it leaves stands for the window with what was added. -/
theorem increment_spec (hr : Whole r) {windowMs : ℕ} (hwin : 1 ≤ windowMs) {add : ℤ} (hadd : 0 < add)
    {uuid : Text} :
    ∃ w, counted windowMs now add uuid (view r now key) = some w ∧ now < w.expiresAt ∧
      (increment r key now windowMs add uuid).1 = w.count ∧
      ∀ k, (increment r key now windowMs add uuid).2.get? k =
        if k = key then some (hashOf w) else r.get? k := by
  rw [counted, if_pos hadd]
  refine ⟨_, rfl, ?_⟩
  cases hv : view r now key with
  | none =>
    rw [Option.getD_none, zero_add]
    exact ⟨Nat.lt_add_of_pos_right hwin, increment_fresh hr hv⟩
  | some w =>
    have hlt := lt_of_view hv
    exact ⟨hlt, increment_live hr hv⟩

theorem peek_spec (hr : Whole r) : peek r key now =
    (view r now key).map fun w => ⟨w.count, w.expiresAt - now⟩ := by
  unfold peek
  rw [hr.hgetC, hr.pttl]
  cases hw : view r now key with
  | none => rfl
  | some w =>
    have : (now : ℤ) < w.expiresAt := by exact_mod_cast lt_of_view hw
    exact if_pos (show (0 : ℤ) < w.expiresAt - now by omega)

/-- The live window of the key is rewritten. -/
theorem view_of_rewrite {r' : RedisWindowCounter} {f : MemoryWindow → MemoryWindow}
    (hw : view r now key = some w) (hf : (f w).expiresAt = w.expiresAt)
    (h : ∀ k, r'.get? k = if k = key then some (hashOf (f w)) else r.get? k) (k : Text) :
    view r' now k = if k = key then (view r now k).map f else view r now k := by
  rw [view_of_get? h (hf ▸ lt_of_view hw)]
  split_ifs with hk
  · rw [hk, hw]
    rfl
  · rfl

theorem view_of_none {f : MemoryWindow → MemoryWindow} (hw : view r now key = none) (k : Text) :
    view r now k = if k = key then (view r now k).map f else view r now k := by
  split_ifs with hk
  · rw [hk, hw]
    rfl
  · rfl

theorem refund_spec (hr : Whole r) (id : Text) : Whole (refund r key now id) ∧
    ∀ k, view (refund r key now id) now k =
      if k = key then (view r now k).map (refunded id) else view r now k := by
  unfold refund
  rw [hr.hgetW]
  cases hw : view r now key with
  | none =>
    rw [Option.map_none, if_neg (by simp)]
    exact ⟨hr, view_of_none hw⟩
  | some w =>
    have hlt := lt_of_view hw
    rw [Option.map_some]
    by_cases hid : w.id = id
    · rw [if_pos (congrArg some hid)]
      have hcounted : ∀ k, (hincrbyC r key now (-1)).get? k =
          if k = key then some (hashOf { w with count := w.count + -1 }) else r.get? k :=
        get?_write_live hr hw _ rfl rfl
      have hwhole := hr.of_get? hcounted
      have hview := (view_of_get? hcounted hlt key).trans (if_pos rfl)
      have hexpiry : (refunded id w).expiresAt = w.expiresAt := by
        rw [refunded, if_pos hid]
      have hlast : ∀ k, (if (RedisWindowCounter.hgetC (hincrbyC r key now (-1)) key now).getD 0 < 0
          then hsetC (hincrbyC r key now (-1)) key now 0 else hincrbyC r key now (-1)).get? k =
            if k = key then some (hashOf (refunded id w)) else r.get? k := by
        intro k
        rw [hwhole.hgetC, hview, Option.map_some, Option.getD_some, refunded, if_pos hid]
        by_cases hneg : w.count + -1 < 0
        · rw [if_pos hneg]
          have hset : (hsetC (hincrbyC r key now (-1)) key now 0).get? k =
              if k = key then some (hashOf { w with count := 0 })
              else (hincrbyC r key now (-1)).get? k := get?_write_live hwhole hview
                { w with count := 0 } rfl rfl k
          rw [hset, max_eq_left (by omega), hcounted]
          split_ifs <;> rfl
        · rw [if_neg hneg, hcounted, max_eq_right (by omega), sub_eq_add_neg]
      exact ⟨hr.of_get? hlast, view_of_rewrite hw hexpiry hlast⟩
    · rw [if_neg fun h => hid (Option.some.inj h)]
      refine ⟨hr, fun k => ?_⟩
      split_ifs with hk
      · rw [hk, hw, Option.map_some, refunded, if_neg hid]
      · rfl

theorem markOnce_spec (hr : Whole r) : Whole (markOnce r key now).2 ∧
    (markOnce r key now).1 = (view r now key).elim false (fun w => !w.marked) ∧
    ∀ k, view (markOnce r key now).2 now k =
      if k = key then (view r now k).map fun w => { w with marked := true } else view r now k := by
  unfold markOnce
  rw [hr.value?]
  cases hw : view r now key with
  | none => exact ⟨hr, rfl, view_of_none hw⟩
  | some w =>
    have hset : ∀ k, (hsetnxM r key now).2.get? k =
        if k = key then some (hashOf { w with marked := true }) else r.get? k :=
      get?_write_live hr hw _ rfl rfl
    refine ⟨hr.of_get? hset, ?_, view_of_rewrite hw rfl hset⟩
    show (!(Keyspace.value? gone r key now).elim false (·.m)) = !w.marked
    rw [hr.value?, hw]
    rfl

theorem delete_spec (now : Time) (hr : Whole r) (ks : List Text) : Whole (delete r ks) ∧
    ∀ k, view (delete r ks) now k = if k ∈ ks then none else view r now k := by
  unfold delete
  induction ks generalizing r with
  | nil => exact ⟨hr, fun _ => rfl⟩
  | cons key ks ih =>
    have hstored : ∀ k, stored (del r key) k = if k = key then none else stored r k := by
      intro k
      unfold stored
      rw [get?_del]
      split_ifs <;> rfl
    have hdel : Whole (del r key) := by
      intro k
      rw [hstored, get?_del]
      split_ifs
      · rfl
      · exact hr k
    obtain ⟨hwhole, hview⟩ := ih hdel
    refine ⟨hwhole, fun k => ?_⟩
    rw [List.foldl_cons, hview]
    unfold view
    rw [hstored]
    by_cases hk : k = key <;> simp [hk]

end RedisWindowCounter

namespace RedisStore

open RedisWindowCounter

variable {uuid : ℕ → Text} {s : RedisStore} {key : Text} {now later : Time}

/-- The windows that have not ended. -/
def view (s : RedisStore) (now : Time) : View := s.hashes.view now

/-- The ids of the takes that have run. -/
def used (uuid : ℕ → Text) (s : RedisStore) (id : Text) : Prop := ∃ n < s.takes, id = uuid n

/-- Hashes stand for windows, counts are not negative, and ids are those of takes that have run. -/
def Inv (uuid : ℕ → Text) (now : Time) (s : RedisStore) : Prop :=
  Whole s.hashes ∧ ∀ k w, s.view now k = some w → 0 ≤ w.count ∧ s.used uuid w.id

theorem inv_later (hle : now ≤ later) (h : Inv uuid now s) : Inv uuid later s := by
  refine ⟨h.1, fun k w hw => ?_⟩
  rw [view, RedisWindowCounter.view, ← filter_later hle] at hw
  exact h.2 k w (Option.filter_eq_some_iff.mp hw).1

theorem Inv.next (h : Inv uuid now s) : Inv uuid now ⟨s.hashes, s.takes + 1⟩ := by
  refine ⟨h.1, fun k w hw => ?_⟩
  obtain ⟨hcount, n, hn, hid⟩ := h.2 k w hw
  exact ⟨hcount, n, Nat.lt_succ_of_lt hn, hid⟩

theorem count_step (hne : ∀ n, uuid n ≠ []) (hinj : Function.Injective uuid) {windowMs : ℕ}
    (hwin : 1 ≤ windowMs) {add : ℤ} (acc : Counted RedisWindowCounter) (key : Text)
    (h : Inv uuid now ⟨acc.counter, s.takes + 1⟩) :
    CountStep (RedisWindowCounter.view · now) windowMs now add (fun id => ¬ s.used uuid id) acc
        (count now windowMs add (uuid s.takes) acc key) key ∧
      Inv uuid now ⟨(count now windowMs add (uuid s.takes) acc key).counter, s.takes + 1⟩ := by
  have hfresh : ¬ s.used uuid (uuid s.takes) := by
    rintro ⟨n, hn, heq⟩
    exact hn.ne (hinj heq).symm
  obtain ⟨hwhole, hlive⟩ := h
  -- the hash of the key after its turn
  have hturn : ∃ next : ℤ × RedisWindowCounter,
      (if 0 < add then increment acc.counter key now windowMs add (uuid s.takes)
        else ((RedisWindowCounter.hgetC acc.counter key now).getD 0, acc.counter)) = next ∧
      next.1 = (next.2.view now key).elim 0 (·.count) ∧
      next.2.view now key =
        counted windowMs now add (uuid s.takes) (acc.counter.view now key) ∧
      (∀ k, k ≠ key → next.2.view now k = acc.counter.view now k) ∧
      Inv uuid now ⟨next.2, s.takes + 1⟩ := by
    refine ⟨_, rfl, ?_⟩
    by_cases hadd : 0 < add
    · rw [if_pos hadd]
      obtain ⟨w, hw, hlt, hcount, hget⟩ := increment_spec hwhole hwin hadd
      have hview := view_of_get? hget hlt
      have hself := (hview key).trans (if_pos rfl)
      refine ⟨by rw [hself]; exact hcount, by rw [hself, hw], fun k hk => (hview k).trans (if_neg hk),
        hwhole.of_get? hget, fun k w' hw' => ?_⟩
      rw [view, hview] at hw'
      split_ifs at hw' with hk
      · cases hw'
        subst hk
        rw [counted, if_pos hadd] at hw
        cases hv : acc.counter.view now k with
        | none =>
          rw [hv] at hw
          cases hw
          exact ⟨by simpa using hadd.le, s.takes, Nat.lt_succ_self _, rfl⟩
        | some w₀ =>
          rw [hv] at hw
          cases hw
          obtain ⟨hnonneg, hid⟩ := hlive k w₀ hv
          exact ⟨by simp only [Option.getD_some]; omega, hid⟩
      · exact hlive k w' hw'
    · rw [if_neg hadd, hwhole.hgetC, counted, if_neg hadd]
      refine ⟨?_, rfl, fun k _ => rfl, hwhole, hlive⟩
      cases acc.counter.view now key <;> rfl
  obtain ⟨next, hnext, hcount, hself, hother, hinv⟩ := hturn
  unfold count
  dsimp only
  rw [hnext, hinv.1.hgetW]
  refine ⟨⟨⟨_, hfresh, hself⟩, hother, ?_, ?_⟩, hinv⟩
  · rw [← max_def_lt, hcount]
  · cases hw : next.2.view now key with
    | none => rfl
    | some w =>
      obtain ⟨_, n, _, hid⟩ := hinv.2 key w hw
      have hid : w.id ≠ [] := hid ▸ hne n
      exact if_neg hid

theorem take_spec (hne : ∀ n, uuid n ≠ []) (hinj : Function.Injective uuid) (h : Inv uuid now s)
    (keys : DistinctKeys) (options : WindowOptions) :
    Takes options now keys.1 (fun id => ¬ s.used uuid id) (s.view now)
        ((s.hashes.take now (uuid s.takes) keys options).2.view now)
        (s.hashes.take now (uuid s.takes) keys options).1 ∧
      Inv uuid now ⟨(s.hashes.take now (uuid s.takes) keys options).2, s.takes + 1⟩ := by
  obtain ⟨-, hlimited, hretry, -⟩ := check_fold (RedisWindowCounter.view · now) (· = s.hashes) keys.1
    (fun acc key hacc => check_step (hacc ▸ h.1) options acc hacc key) ⟨false, 0, s.hashes⟩ rfl
  rw [Bool.false_or] at hlimited
  unfold RedisWindowCounter.take
  dsimp only
  set checked := keys.1.foldl (check now options) ⟨false, 0, s.hashes⟩
  have hadd : (if checked.limited then options.refusedWeight else options.weight) =
      added options (s.view now) keys.1 := by
    rw [hlimited]
    rfl
  rw [hadd]
  obtain ⟨hself, hother, hcount, hwindows, hinv⟩ := count_fold (RedisWindowCounter.view · now)
    (fun r => Inv uuid now ⟨r, s.takes + 1⟩)
    (fun acc key hacc => count_step hne hinj options.windowMs_pos acc key hacc) keys.2
    ⟨0, Table.empty, s.hashes⟩ h.next fun k _ => List.not_mem_nil
  refine ⟨⟨hlimited, ?_, hcount, hself, hother, hwindows⟩, hinv⟩
  rw [hlimited, hretry]
  rfl

theorem inv_empty : Inv uuid now ⟨Table.empty, 0⟩ := ⟨fun _ => rfl, fun k w hw => by cases hw⟩

section Calls

variable (hne : ∀ n, uuid n ≠ []) (hinj : Function.Injective uuid)

include hne hinj

theorem effect (h : Inv uuid now s) (op : Op) : Effect (fun id => ¬ s.used uuid id) now (s.view now)
    op (s.call uuid now op).1 ((s.call uuid now op).2.view now) := by
  cases op with
  | take keys options => exact ⟨_, rfl, (take_spec hne hinj h keys options).1⟩
  | peek key => exact ⟨congrArg _ (peek_spec h.1), rfl⟩
  | refund key id => exact ⟨rfl, (refund_spec h.1 id).2⟩
  | delete keys => exact ⟨rfl, (delete_spec now h.1 keys).2⟩
  | markOnce key => exact ⟨congrArg _ (markOnce_spec h.1).2.1, (markOnce_spec h.1).2.2⟩
  | prune => exact ⟨rfl, rfl⟩

omit hne hinj in
theorem takes_call (op : Op) (hop : ∀ keys options, op ≠ .take keys options) :
    (s.call uuid now op).2.takes = s.takes := by
  cases op with
  | take keys options => exact absurd rfl (hop keys options)
  | _ => rfl

omit hne hinj in
theorem whole_call (h : Whole s.hashes) (op : Op) (hop : ∀ keys options, op ≠ .take keys options) :
    Whole (s.call uuid now op).2.hashes := by
  cases op with
  | take keys options => exact absurd rfl (hop keys options)
  | peek key => exact h
  | refund key id => exact (refund_spec h id).1
  | delete keys => exact (delete_spec now h keys).1
  | markOnce key => exact (markOnce_spec h).1
  | prune => exact h

theorem Inv.call (h : Inv uuid now s) (op : Op) : Inv uuid now (s.call uuid now op).2 := by
  by_cases hop : ∃ keys options, op = .take keys options
  · obtain ⟨keys, options, rfl⟩ := hop
    exact (take_spec hne hinj h keys options).2
  · have hop : ∀ keys options, op ≠ .take keys options := fun keys options heq =>
      hop ⟨keys, options, heq⟩
    refine ⟨whole_call h.1 op hop, fun k w' hw => ?_⟩
    obtain ⟨w, hv, hid, _, hcount⟩ := (effect hne hinj h op).origin hop hw
    obtain ⟨hnonneg, n, hn, hw⟩ := h.2 k w hv
    refine ⟨?_, n, hn.trans_le (le_of_eq (takes_call op hop).symm), hid.trans hw⟩
    rcases hcount with hcount | ⟨_, hcount⟩
    · exact hcount ▸ hnonneg
    · exact hcount ▸ le_max_left _ _

omit hne hinj in
theorem used_call {id : Text} (op : Op) (hid : s.used uuid id) :
    (s.call uuid now op).2.used uuid id := by
  obtain ⟨n, hn, rfl⟩ := hid
  by_cases hop : ∃ keys options, op = .take keys options
  · obtain ⟨keys, options, rfl⟩ := hop
    exact ⟨n, Nat.lt_succ_of_lt hn, rfl⟩
  · exact ⟨n, hn.trans_le (le_of_eq (takes_call op fun keys options heq =>
      hop ⟨keys, options, heq⟩).symm), rfl⟩

/-- **The Redis scripts are lawful.** -/
def lawful : Lawful (call uuid) where
  view := view
  used := used uuid
  Inv := Inv uuid
  view_later hle k := (filter_later hle _).symm
  inv_later hle h := inv_later hle h
  sound h hw := ⟨(h.2 _ _ hw).1, lt_of_view hw, (h.2 _ _ hw).2⟩
  effect op h := effect hne hinj h op
  inv op h := h.call hne hinj op
  used_call op _ hid := used_call op hid

end Calls

end RedisStore

end BunMail.Utils.Windows
