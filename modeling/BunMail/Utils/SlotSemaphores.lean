import BunMail.Lib.SortedSets
import BunMail.Lib.Text

/-!
# Leased slots

The semaphores of `shared-slots.ts` in memory and the scripts of `redis-slots.ts`.  A slot is held
until it is released or its lease runs out; who finds no free slot waits in line, and keeps its place
as long as it asks again in time.
-/

namespace BunMail.Utils.Slots

open Keyspace

/-- `SlotOptions`. -/
structure SlotOptions where
  max : ℕ
  leaseMs : ℕ
  queueTtlMs : ℕ
  leaseMs_pos : 1 ≤ leaseMs
  queueTtlMs_pos : 1 ≤ queueTtlMs

/-! ## In memory -/

/-- Until when, by holder. -/
abbrev Leases := Table (Prod.fst : Text × Time → Text)

/-- `MemorySlots`. -/
structure MemorySlots where
  holders : Leases
  queue : Leases

/-- `MemorySlotSemaphore.entries`. -/
abbrev MemorySlotSemaphore := Table (Prod.fst : Text × MemorySlots → Text)

namespace MemorySlots

/-- No holders and no waiters. -/
def none : MemorySlots := ⟨Table.empty, Table.empty⟩

/-- `map.delete`. -/
def without (map : Leases) (holder : Text) : Leases := map.deleteWhere fun e => decide (e.1 = holder)

/-- `drop`. -/
def drop (slots : MemorySlots) (now : Time) : MemorySlots :=
  ⟨slots.holders.deleteWhere fun e => decide (e.2 ≤ now),
    slots.queue.deleteWhere fun e => decide (e.2 ≤ now)⟩

/-- How many waiters come before the holder: all of them, when it is not in line. -/
def ahead (slots : MemorySlots) (holder : Text) : ℕ :=
  if holder ∈ slots.queue.keys then slots.queue.keys.idxOf holder else slots.queue.rows.length

/-- `granted` of `acquire`. -/
def grants (slots : MemorySlots) (max : ℕ) (holder : Text) : Bool :=
  (slots.holders.get? holder).isSome ||
    (decide (slots.holders.rows.length < max) &&
      decide (slots.ahead holder < max - slots.holders.rows.length))

/-- The slots after an `acquire`. -/
def acquire (slots : MemorySlots) (options : SlotOptions) (holder : Text) (now : Time) :
    MemorySlots :=
  if slots.grants options.max holder then
    ⟨slots.holders.put holder (now + options.leaseMs), without slots.queue holder⟩
  else { slots with queue := slots.queue.put holder (now + options.queueTtlMs) }

end MemorySlots

namespace MemorySlotSemaphore

variable (entries : MemorySlotSemaphore) (key holder : Text) (now : Time)

/-- `tidy`, after the slots of the key have changed. -/
def tidied (slots : MemorySlots) : MemorySlotSemaphore :=
  if slots.holders.rows = [] ∧ slots.queue.rows = [] then
    entries.deleteWhere fun e => decide (e.1 = key)
  else entries.put key slots

/-- `acquire`. -/
def acquire (options : SlotOptions) : Bool × MemorySlotSemaphore :=
  let slots := ((entries.get? key).getD .none).drop now
  (slots.grants options.max holder, entries.put key (slots.acquire options holder now))

/-- `renew`. -/
def renew (leaseMs : ℕ) : Bool × MemorySlotSemaphore :=
  (entries.get? key).elim (false, entries) fun slots =>
    let slots := slots.drop now
    if (slots.holders.get? holder).isSome then
      (true, tidied entries key { slots with holders := slots.holders.put holder (now + leaseMs) })
    else (false, tidied entries key slots)

/-- `release`. -/
def release : MemorySlotSemaphore :=
  (entries.get? key).elim entries fun slots =>
    tidied entries key ⟨MemorySlots.without slots.holders holder,
      MemorySlots.without slots.queue holder⟩

/-- `prune`. -/
def prune : MemorySlotSemaphore :=
  (entries.mapValues fun _ slots => slots.drop now).deleteWhere fun e =>
    decide (e.2.holders.rows = [] ∧ e.2.queue.rows = [])

end MemorySlotSemaphore

/-! ## In Redis -/

/-- The holders, the line of waiters, and when their places lapse. -/
inductive Part where
  | h
  | q
  | w
  deriving DecidableEq

/-- The keys `<key>:h`, `<key>:q` and `<key>:w`. -/
abbrev RedisSlotSemaphore := Keys (Text × Part) (ZSet Text)

namespace RedisSlotSemaphore

variable (gone : ℕ → ℕ → Bool) (keys : RedisSlotSemaphore) (key holder : Text) (now : Time)

/-- `expire(key, scores)`. -/
def expire (part scores : Part) : RedisSlotSemaphore :=
  (zset gone keys (key, scores) now).top.elim keys fun top =>
    pexpire gone keys (key, part) now (max 1 (top - now))

/-- The head of `ACQUIRE_SCRIPT`: lapsed holders and waiters are dropped. -/
def cleaned : RedisSlotSemaphore :=
  let keys₁ := zwrite gone keys (key, .h) now (ZSet.live · now)
  let keys₂ := (zset gone keys₁ (key, .w) now).lapsed now |>.foldl
    (fun ks member => zwrite gone ks (key, .q) now (ZSet.rem · member)) keys₁
  zwrite gone keys₂ (key, .w) now (ZSet.live · now)

/-- `granted` of `ACQUIRE_SCRIPT`. -/
def granted (max : ℕ) : Bool :=
  ((zset gone keys (key, .h) now).get? holder).isSome ||
    (let free : ℤ := max - (zset gone keys (key, .h) now).rows.length
    if 0 < free then
      let line := zset gone keys (key, .q) now
      decide (((line.rank holder).getD line.rows.length : ℤ) < free)
    else false)

/-- The holder is granted a slot. -/
def grant (leaseMs : ℕ) : RedisSlotSemaphore :=
  let keys₁ := zwrite gone keys (key, .h) now (Table.put · holder (now + leaseMs))
  let keys₂ := zwrite gone keys₁ (key, .q) now (ZSet.rem · holder)
  zwrite gone keys₂ (key, .w) now (ZSet.rem · holder)

/-- When the holder joins the line: one after the last, if that is not before `now`. -/
def arrival : ℕ :=
  (zset gone keys (key, .q) now).top.elim now fun last => if now ≤ last then last + 1 else now

/-- The holder joins the line, or keeps its place. -/
def enqueue (queueTtlMs : ℕ) : RedisSlotSemaphore :=
  let keys₁ := if ((zset gone keys (key, .q) now).get? holder).isNone then
    zwrite gone keys (key, .q) now (Table.put · holder (arrival gone keys key now)) else keys
  zwrite gone keys₁ (key, .w) now (Table.put · holder (now + queueTtlMs))

/-- The tail of `ACQUIRE_SCRIPT`. -/
def expireAll : RedisSlotSemaphore :=
  let keys₁ := expire gone keys key now .h .h
  let keys₂ := expire gone keys₁ key now .q .w
  expire gone keys₂ key now .w .w

/-- `ACQUIRE_SCRIPT`. -/
def acquire (options : SlotOptions) : Bool × RedisSlotSemaphore :=
  let keys := cleaned gone keys key now
  let granted := granted gone keys key holder now options.max
  (granted, expireAll gone (if granted then grant gone keys key holder now options.leaseMs
    else enqueue gone keys key holder now options.queueTtlMs) key now)

/-- `RENEW_SCRIPT`. -/
def renew (leaseMs : ℕ) : Bool × RedisSlotSemaphore :=
  ((zset gone keys (key, .h) now).get? holder).elim (false, keys) fun lease =>
    if lease ≤ now then (false, zwrite gone keys (key, .h) now (ZSet.rem · holder))
    else (true, expire gone (zwrite gone keys (key, .h) now (Table.put · holder (now + leaseMs)))
      key now .h .h)

/-- `RELEASE_SCRIPT`. -/
def release : RedisSlotSemaphore :=
  let keys₁ := zwrite gone keys (key, .h) now (ZSet.rem · holder)
  let keys₂ := zwrite gone keys₁ (key, .q) now (ZSet.rem · holder)
  zwrite gone keys₂ (key, .w) now (ZSet.rem · holder)

end RedisSlotSemaphore

/-! ## Calls -/

/-- The calls, and the sweep. -/
inductive SlotOp where
  | acquire (key holder : Text) (leaseMs queueTtlMs : ℕ) (lease : 1 ≤ leaseMs) (ttl : 1 ≤ queueTtlMs)
  | renew (key holder : Text) (leaseMs : ℕ) (lease : 1 ≤ leaseMs)
  | release (key holder : Text)
  | prune

/-- The call is one of the holder's, on the key. -/
def SlotOp.isBy (key holder : Text) : SlotOp → Bool
  | .acquire k h _ _ _ _ => k = key && h = holder
  | .renew k h _ _ => k = key && h = holder
  | .release k h => k = key && h = holder
  | .prune => false

/-- A call, at the clock's time. -/
structure SlotCall where
  time : Time
  op : SlotOp

/-- A call of the memory semaphore. -/
def MemorySlotSemaphore.call (max : ℕ) (entries : MemorySlotSemaphore) (c : SlotCall) :
    Option Bool × MemorySlotSemaphore :=
  match c.op with
  | .acquire key holder leaseMs queueTtlMs lease ttl =>
    let answer := acquire entries key holder c.time ⟨max, leaseMs, queueTtlMs, lease, ttl⟩
    (some answer.1, answer.2)
  | .renew key holder leaseMs _ =>
    (some (renew entries key holder c.time leaseMs).1, (renew entries key holder c.time leaseMs).2)
  | .release key holder => (none, release entries key holder)
  | .prune => (none, prune entries c.time)

/-- A call of the Redis semaphore, which sweeps nothing. -/
def RedisSlotSemaphore.call (gone : ℕ → ℕ → Bool) (max : ℕ) (keys : RedisSlotSemaphore)
    (c : SlotCall) : Option Bool × RedisSlotSemaphore :=
  match c.op with
  | .acquire key holder leaseMs queueTtlMs lease ttl =>
    let answer := acquire gone keys key holder c.time ⟨max, leaseMs, queueTtlMs, lease, ttl⟩
    (some answer.1, answer.2)
  | .renew key holder leaseMs _ =>
    (some (renew gone keys key holder c.time leaseMs).1,
      (renew gone keys key holder c.time leaseMs).2)
  | .release key holder => (none, release gone keys key holder c.time)
  | .prune => (none, keys)

end BunMail.Utils.Slots
