import BunMail.Lib.Run
import BunMail.Lib.Transactions

/-!
# The daily slots of report deliveries

`reserveSend` and `releaseSend` of `tls-rpt-store.service.ts`, statement by statement, and the
deliveries of `deliverReport` around them.  Days are UTC days as the database sees them; a
transaction counts on the day it started.
-/

namespace BunMail.TlsRpt

open Transactions

/-- The caps of `config.tlsRpt`, which refuses any below one. -/
structure Caps where
  perDay : ℕ
  perDestination : ℕ
  perDay_pos : 1 ≤ perDay
  perDestination_pos : 1 ≤ perDestination

/-- A row of one of the two tables of counters. -/
inductive Slot
  | day (day : ℕ)
  | destination (day : ℕ) (destinationHash : Text)
  deriving DecidableEq

/-- `tlsrpt_daily_sends` and `tlsrpt_destination_sends`. -/
structure Counters where
  dailySends : Table (Prod.fst : ℕ × ℕ → ℕ)
  destinationSends : Table (Prod.fst : (ℕ × Text) × ℕ → ℕ × Text)

namespace Counters

/-- Without any row. -/
def none : Counters := ⟨Table.empty, Table.empty⟩

/-- The column `sent` of a row, if there is one. -/
def sent? (db : Counters) : Slot → Option ℕ
  | .day day => db.dailySends.get? day
  | .destination day hash => db.destinationSends.get? (day, hash)

/-- The row with `sent` set. -/
def set (db : Counters) : Slot → ℕ → Counters
  | .day day, sent => { db with dailySends := db.dailySends.put day sent }
  | .destination day hash, sent =>
    { db with destinationSends := db.destinationSends.put (day, hash) sent }

/-- How much a row counts. -/
def sent (db : Counters) (slot : Slot) : ℕ := (db.sent? slot).getD 0

end Counters

/-- The cap of a row. -/
def Caps.of (caps : Caps) : Slot → ℕ
  | .day _ => caps.perDay
  | .destination _ _ => caps.perDestination

/-- The upsert that takes a slot: an insert with one, or an increment under the cap. -/
def increment (sent? : Option ℕ) (cap : ℕ) : Option ℕ :=
  sent?.elim (some 1) fun sent => if sent < cap then some (sent + 1) else none

/-! ## Deliveries -/

/-- How far a delivery has come: the transaction that takes its slots, the delivery, and the
transaction that gives them back.  Rows written and not yet committed are kept with their value. -/
inductive Stage
  | destinationTaken (destination : ℕ)
  | taken (destination daily : ℕ)
  | refusing (destination : ℕ)
  | destinationCap
  | dailyCap
  | reserved
  | sent
  | failed
  | skipped
  | destinationBack (today : ℕ) (destination : Option ℕ)
  | givenBack (today : ℕ) (destination daily : Option ℕ)
  | released (today : ℕ)
  | aborted

/-- A delivery to a destination, with the day of its reservation. -/
structure Delivery where
  destination : Text
  day : ℕ
  stage : Stage

/-- The counters, and every delivery so far. -/
abbrev Sends := Store Counters Delivery

section Calls

variable (caps : Caps) (destinationHash : Text → Text)

/-- The row of the delivery's destination. -/
def Delivery.slot (d : Delivery) (day : ℕ) : Slot :=
  .destination day (destinationHash d.destination)

/-- The row of a value that was written, locked until the transaction ends. -/
def lockOf (slot : Slot) (written : Option ℕ) : List (Slot × Mode) :=
  written.elim [] fun _ => [(slot, .noKeyUpdate)]

/-- The rows its transaction has locked. -/
def locks (d : Delivery) : List (Slot × Mode) :=
  match d.stage with
  | .destinationTaken v => lockOf (d.slot destinationHash d.day) (some v)
  | .taken v w => lockOf (d.slot destinationHash d.day) (some v) ++ lockOf (.day d.day) (some w)
  | .refusing v =>
    -- the upsert locks the row it leaves as it is
    lockOf (d.slot destinationHash d.day) (some v) ++ [(.day d.day, .noKeyUpdate)]
  | .destinationBack today v => lockOf (d.slot destinationHash today) v
  | .givenBack today v w => lockOf (d.slot destinationHash today) v ++ lockOf (.day today) w
  | _ => []

/-- A row that was written. -/
def write (slot : Slot) (written : Option ℕ) (db : Counters) : Counters :=
  written.elim db (db.set slot)

/-- The rows its transaction has written. -/
def writes (d : Delivery) (db : Counters) : Counters :=
  match d.stage with
  | .taken v w => write (.day d.day) (some w) (write (d.slot destinationHash d.day) (some v) db)
  | .refusing v => write (d.slot destinationHash d.day) (some v) db
  | .givenBack today v w => write (.day today) w (write (d.slot destinationHash today) v db)
  | _ => db

/-- The delivery `t` comes to a stage. -/
def Delivery.comes (s : Sends) (t : ℕ) (d : Delivery) (stage : Stage) : Sends :=
  s.put t { d with stage := stage }

/-- `UPDATE ... SET sent = GREATEST(sent - 1, 0)`, which finds a row or none. -/
def giveBack (s : Sends) (t : ℕ) (slot : Slot) (next : Option ℕ → Sends) : Sends :=
  (s.db.sent? slot).elim (next none) fun sent =>
    if s.grants (locks destinationHash) t [(slot, .noKeyUpdate)] then next (some (sent - 1)) else s

/-- How a delivery ends. -/
inductive Outcome
  | sent
  | failed
  | skipped

/-- The stage of an outcome. -/
def Outcome.stage : Outcome → Stage
  | .sent => .sent
  | .failed => .failed
  | .skipped => .skipped

/-- What happens to the delivery `t`. -/
inductive Step
  /-- `reserveSend`: its first statement. -/
  | reserve (t : ℕ) (destination : Text) (today : ℕ)
  /-- The next statement of its transaction, or the commit. -/
  | next (t : ℕ)
  /-- The connection is lost. -/
  | rollback (t : ℕ)
  /-- The delivery ends. -/
  | deliver (t : ℕ) (outcome : Outcome)
  /-- `releaseSend` of a delivery that was skipped: its first statement. -/
  | release (t : ℕ) (today : ℕ)

/-- The next statement of the transaction of `t`, or its commit. -/
def nextStatement (s : Sends) (t : ℕ) (d : Delivery) : Sends :=
  match d.stage with
  | .destinationTaken v =>
    if s.grants (locks destinationHash) t [(.day d.day, .noKeyUpdate)] then
      -- past the daily cap, `releaseDestination` gives the other slot back
      d.comes s t ((increment (s.db.sent? (.day d.day)) caps.perDay).elim (.refusing (v - 1))
        (.taken v))
    else s
  | .taken _ _ => s.commit (writes destinationHash) t d { d with stage := .reserved }
  | .refusing _ => s.commit (writes destinationHash) t d { d with stage := .dailyCap }
  | .destinationBack today v =>
    giveBack destinationHash s t (.day today) fun w => d.comes s t (.givenBack today v w)
  | .givenBack today _ _ => s.commit (writes destinationHash) t d { d with stage := .released today }
  | _ => s

/-- Its transaction ends without a write, if one is open. -/
def rolledBack (s : Sends) (t : ℕ) (d : Delivery) : Sends :=
  match d.stage with
  | .destinationTaken _ | .taken _ _ | .refusing _ | .destinationBack _ _ | .givenBack _ _ _ =>
    d.comes s t .aborted
  | _ => s

/-- What happens. -/
def step (s : Sends) : Step → Sends
  | .reserve t destination today =>
    let slot := Slot.destination today (destinationHash destination)
    if (s.phase? t).isNone ∧ s.grants (locks destinationHash) t [(slot, .noKeyUpdate)] then
      s.put t ⟨destination, today, (increment (s.db.sent? slot) caps.perDestination).elim
        .destinationCap .destinationTaken⟩
    else s
  | .next t => (s.phase? t).elim s (nextStatement caps destinationHash s t)
  | .rollback t => (s.phase? t).elim s (rolledBack s t)
  | .deliver t outcome => (s.phase? t).elim s fun d =>
    match d.stage with
    | .reserved => d.comes s t outcome.stage
    | _ => s
  | .release t today => (s.phase? t).elim s fun d =>
    match d.stage with
    | .skipped => giveBack destinationHash s t (d.slot destinationHash today) fun v =>
        d.comes s t (.destinationBack today v)
    | _ => s

end Calls

end BunMail.TlsRpt
