import BunMail.Lib.Keyspace
import BunMail.Lib.Text

/-!
# Fixed-window counters

`WindowCounter` of `shared-store.ts`, in memory and in Redis.  The window of a key begins with its
first count and lasts `windowMs`.  The memory counter drops a window when it next reads its key, or
in a sweep; Redis lets the key expire.
-/

namespace BunMail.Utils.Windows

/-- `WindowOptions`. -/
structure WindowOptions where
  max : ℤ
  windowMs : ℕ
  weight : ℤ
  refusedWeight : ℤ
  windowMs_pos : 1 ≤ windowMs
  weight_pos : 1 ≤ weight
  refusedWeight_nonneg : 0 ≤ refusedWeight

/-- Window ids by key. -/
abbrev WindowIds := Table (Prod.fst : Text × Text → Text)

/-- `WindowDecision`. -/
structure WindowDecision where
  limited : Bool
  count : ℤ
  retryAfterMs : Option ℤ
  windows : WindowIds

/-- `WindowState`. -/
structure WindowState where
  count : ℤ
  resetInMs : ℤ
  deriving DecidableEq

/-- The keys of a take are distinct. -/
abbrev DistinctKeys := { keys : List Text // keys.Nodup }

/-- The calls of `WindowCounter`, and `prune`. -/
inductive Op where
  | take (keys : DistinctKeys) (options : WindowOptions)
  | peek (key : Text)
  | refund (key windowId : Text)
  | delete (keys : List Text)
  | markOnce (key : Text)
  | prune

/-- What they answer. -/
inductive Answer where
  | took (decision : WindowDecision)
  | peeked (state : Option WindowState)
  | marked (first : Bool)
  | done

/-- What the first loop of a take finds. -/
structure Checked (σ : Type) where
  limited : Bool
  retryAfterMs : ℤ
  counter : σ

/-- What the second loop of a take finds. -/
structure Counted (σ : Type) where
  count : ℤ
  windows : WindowIds
  counter : σ

/-! ## In memory -/

/-- `MemoryWindow`. -/
structure MemoryWindow where
  count : ℤ
  expiresAt : Time
  marked : Bool
  id : Text

/-- `MemoryWindowCounter`, with `memoryWindowSeq`. -/
structure MemoryWindowCounter where
  entries : Table (Prod.fst : Text × MemoryWindow → Text)
  memoryWindowSeq : ℕ

namespace MemoryWindowCounter

variable (c : MemoryWindowCounter) (key : Text) (now : Time)

/-- `entries.set`. -/
def set (entry : MemoryWindow) : MemoryWindowCounter := { c with entries := c.entries.put key entry }

/-- `entries.delete`. -/
def drop : MemoryWindowCounter :=
  { c with entries := c.entries.deleteWhere fun e => decide (e.1 = key) }

/-- `live`. -/
def live : Option MemoryWindow × MemoryWindowCounter :=
  (c.entries.get? key).elim (none, c) fun entry =>
    if entry.expiresAt ≤ now then (none, c.drop key) else (some entry, c)

/-- The first loop of `take`. -/
def check (options : WindowOptions) (acc : Checked MemoryWindowCounter) (key : Text) :
    Checked MemoryWindowCounter :=
  let found := acc.counter.live key now
  if options.max < found.1.elim 0 (·.count) + options.weight then
    ⟨true, max acc.retryAfterMs (found.1.elim options.windowMs fun e => e.expiresAt - now), found.2⟩
  else { acc with counter := found.2 }

/-- The entry a count goes to, a new one when the key has none. -/
def opened (windowMs : ℕ) (found : Option MemoryWindow × MemoryWindowCounter) :
    MemoryWindow × MemoryWindowCounter :=
  found.1.elim
    (⟨0, now + windowMs, false, Text.decimal (found.2.memoryWindowSeq + 1)⟩,
      { found.2 with memoryWindowSeq := found.2.memoryWindowSeq + 1 })
    fun entry => (entry, found.2)

/-- The second loop of `take`. -/
def count (windowMs : ℕ) (add : ℤ) (acc : Counted MemoryWindowCounter) (key : Text) :
    Counted MemoryWindowCounter :=
  let found := acc.counter.live key now
  if 0 < add then
    let entry := opened now windowMs found
    let counted := { entry.1 with count := entry.1.count + add }
    ⟨max acc.count counted.count, acc.windows.put key counted.id, entry.2.set key counted⟩
  else
    ⟨max acc.count (found.1.elim 0 (·.count)),
      found.1.elim acc.windows fun e => acc.windows.put key e.id, found.2⟩

/-- `take`. -/
def take (keys : DistinctKeys) (options : WindowOptions) : WindowDecision × MemoryWindowCounter :=
  let checked := keys.1.foldl (check now options) ⟨false, 0, c⟩
  let add := if checked.limited then options.refusedWeight else options.weight
  let counted := keys.1.foldl (count now options.windowMs add) ⟨0, Table.empty, checked.counter⟩
  (⟨checked.limited, counted.count, if checked.limited then some checked.retryAfterMs else none,
    counted.windows⟩, counted.counter)

/-- `peek`. -/
def peek : Option WindowState × MemoryWindowCounter :=
  let found := c.live key now
  (found.1.map fun e => ⟨e.count, e.expiresAt - now⟩, found.2)

/-- `refund`. -/
def refund (windowId : Text) : MemoryWindowCounter :=
  let found := c.live key now
  found.1.elim found.2 fun e =>
    if e.id = windowId then found.2.set key { e with count := max 0 (e.count - 1) } else found.2

/-- `delete`. -/
def delete (keys : List Text) : MemoryWindowCounter := keys.foldl drop c

/-- `markOnce`. -/
def markOnce : Bool × MemoryWindowCounter :=
  let found := c.live key now
  found.1.elim (false, found.2) fun e =>
    if e.marked then (false, found.2) else (true, found.2.set key { e with marked := true })

/-- `prune`. -/
def prune : MemoryWindowCounter :=
  { c with entries := c.entries.deleteWhere fun e => decide (e.2.expiresAt ≤ now) }

/-- A call of the counter. -/
def call : Op → Answer × MemoryWindowCounter
  | .take keys options => (.took (c.take now keys options).1, (c.take now keys options).2)
  | .peek key => (.peeked (c.peek key now).1, (c.peek key now).2)
  | .refund key windowId => (.done, c.refund key now windowId)
  | .delete keys => (.done, c.delete keys)
  | .markOnce key => (.marked (c.markOnce key now).1, (c.markOnce key now).2)
  | .prune => (.done, c.prune now)

end MemoryWindowCounter

/-! ## In Redis -/

open Keyspace

/-- The hash of a counter: its count, its mark and its window's id. -/
structure WindowHash where
  c : Option ℤ
  m : Bool
  w : Option Text

/-- A key is gone once its time has passed. -/
def gone (t now : ℕ) : Bool := decide (t ≤ now)

/-- The hashes. -/
abbrev RedisWindowCounter := Keys Text WindowHash

namespace RedisWindowCounter

variable (keys : RedisWindowCounter) (key : Text) (now : Time)

/-- `HGET key c`. -/
def hgetC : Option ℤ := (value? gone keys key now).bind (·.c)

/-- `HGET key w`. -/
def hgetW : Option Text := (value? gone keys key now).bind (·.w)

/-- `HINCRBY key c add`. -/
def hincrbyC (add : ℤ) : RedisWindowCounter :=
  write gone keys key now fun h =>
    h.elim ⟨some add, false, none⟩ fun h => { h with c := some (h.c.getD 0 + add) }

/-- `HSET key c`. -/
def hsetC (count : ℤ) : RedisWindowCounter :=
  write gone keys key now fun h => h.elim ⟨some count, false, none⟩ fun h => { h with c := some count }

/-- `HSETNX key w id`. -/
def hsetnxW (id : Text) : RedisWindowCounter :=
  write gone keys key now fun h =>
    h.elim ⟨none, false, some id⟩ fun h => { h with w := some (h.w.getD id) }

/-- `HSETNX key m 1`. -/
def hsetnxM : Bool × RedisWindowCounter :=
  (!(value? gone keys key now).elim false (·.m),
    write gone keys key now fun h => h.elim ⟨none, true, none⟩ fun h => { h with m := true })

/-- The first loop of `TAKE_SCRIPT`. -/
def check (options : WindowOptions) (acc : Checked RedisWindowCounter) (key : Text) :
    Checked RedisWindowCounter :=
  if options.max < (hgetC acc.counter key now).getD 0 + options.weight then
    let ttl := pttl gone acc.counter key now
    let ttl := if ttl < 0 then (options.windowMs : ℤ) else ttl
    { acc with limited := true, retryAfterMs := if acc.retryAfterMs < ttl then ttl else acc.retryAfterMs }
  else acc

/-- The count of one key: what `HINCRBY` answers, and the hash it leaves. -/
def increment (windowMs : ℕ) (add : ℤ) (uuid : Text) : ℤ × RedisWindowCounter :=
  let fresh := (value? gone keys key now).isNone
  let counted := hincrbyC keys key now add
  let named := hsetnxW counted key now uuid
  ((hgetC counted key now).getD 0,
    if fresh || decide (pttl gone named key now < 0) then pexpire gone named key now windowMs
    else named)

/-- The second loop of `TAKE_SCRIPT`; `take` leaves out the keys whose id is empty. -/
def count (windowMs : ℕ) (add : ℤ) (uuid : Text) (acc : Counted RedisWindowCounter) (key : Text) :
    Counted RedisWindowCounter :=
  let counted := if 0 < add then increment acc.counter key now windowMs add uuid
    else ((hgetC acc.counter key now).getD 0, acc.counter)
  let id := (hgetW counted.2 key now).getD []
  ⟨if acc.count < counted.1 then counted.1 else acc.count,
    if id = [] then acc.windows else acc.windows.put key id, counted.2⟩

/-- `take`; a window that it begins has the id `uuid`. -/
def take (uuid : Text) (ks : DistinctKeys) (options : WindowOptions) :
    WindowDecision × RedisWindowCounter :=
  let checked := ks.1.foldl (check now options) ⟨false, 0, keys⟩
  let add := if checked.limited then options.refusedWeight else options.weight
  let counted := ks.1.foldl (count now options.windowMs add uuid) ⟨0, Table.empty, keys⟩
  (⟨checked.limited, counted.count, if checked.limited then some checked.retryAfterMs else none,
    counted.windows⟩, counted.counter)

/-- `peek`. -/
def peek : Option WindowState :=
  (hgetC keys key now).bind fun count =>
    if 0 < pttl gone keys key now then some ⟨count, pttl gone keys key now⟩ else none

/-- `REFUND_SCRIPT`. -/
def refund (windowId : Text) : RedisWindowCounter :=
  if hgetW keys key now = some windowId then
    let counted := hincrbyC keys key now (-1)
    if (hgetC counted key now).getD 0 < 0 then hsetC counted key now 0 else counted
  else keys

/-- `delete`. -/
def delete (ks : List Text) : RedisWindowCounter := ks.foldl del keys

/-- `MARK_ONCE_SCRIPT`. -/
def markOnce : Bool × RedisWindowCounter :=
  if (value? gone keys key now).isNone then (false, keys) else hsetnxM keys key now

end RedisWindowCounter

/-- The hashes, and how many takes have run: the take `n` brings the id `uuid n`. -/
structure RedisStore where
  hashes : RedisWindowCounter
  takes : ℕ

/-- A call of the counter.  Redis sweeps nothing. -/
def RedisStore.call (uuid : ℕ → Text) (s : RedisStore) (now : Time) : Op → Answer × RedisStore
  | .take keys options =>
    let took := s.hashes.take now (uuid s.takes) keys options
    (.took took.1, ⟨took.2, s.takes + 1⟩)
  | .peek key => (.peeked (s.hashes.peek key now), s)
  | .refund key windowId => (.done, { s with hashes := s.hashes.refund key now windowId })
  | .delete keys => (.done, { s with hashes := s.hashes.delete keys })
  | .markOnce key =>
    (.marked (s.hashes.markOnce key now).1, { s with hashes := (s.hashes.markOnce key now).2 })
  | .prune => (.done, s)

end BunMail.Utils.Windows
