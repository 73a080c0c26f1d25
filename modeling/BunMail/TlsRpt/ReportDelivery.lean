import BunMail.Lib.Calendar
import BunMail.Lib.Fields
import BunMail.Lib.Run
import BunMail.TlsRpt.ReportRecord

/-!
# Delivering a TLS report

`claimDueReports`, `deliverReport` and what it does to the report's row, with the answers of the
outside as data of the run: the TXT lookup, the report's size, and for each address the time, the
suppression list, the caps and the delivery.
-/

namespace BunMail.TlsRpt

open Calendar

/-- `RETRY_BACKOFF_MINUTES`. -/
def RETRY_BACKOFF_MINUTES : List ℕ := [30, 60, 120, 240, 480]

/-- `MAX_SEND_ATTEMPTS`. -/
def MAX_SEND_ATTEMPTS : ℕ := RETRY_BACKOFF_MINUTES.length + 1

/-- `CLAIM_LEASE_MINUTES`. -/
def CLAIM_LEASE_MINUTES : ℕ := 180

/-- `MAX_REPORT_BYTES`. -/
def MAX_REPORT_BYTES : ℕ := 1000000

def minuteMs : ℕ := 60000

/-- `RETRY_BACKOFF_MINUTES[attempts - 1]`. -/
def backoff? (attempts : ℕ) : Option ℕ :=
  if attempts = 0 then none else RETRY_BACKOFF_MINUTES[attempts - 1]?

/-! ## The row -/

/-- The columns of `tlsrpt_reports` that a run reads or writes. -/
structure Report where
  policyDomain : Text
  day : ℕ
  nextAttemptAt : Time
  attempts : ℕ
  deliveredRua : Text

namespace Report

/-- `deliveredOf`. -/
def deliveredOf (row : Report) : List Text :=
  if row.deliveredRua = [] then [] else row.deliveredRua.splitOn '\n'

/-- `deliveredRua.join("\n")`. -/
def setDelivered (row : Report) (delivered : List Text) : Report :=
  { row with deliveredRua := ['\n'].intercalate delivered }

/-- The `WHERE` of `claimDueReports`. -/
def due (row : Report) (now : Time) : Prop := row.nextAttemptAt ≤ now ∧ row.day < utcDay now

instance (row : Report) (now : Time) : Decidable (row.due now) :=
  inferInstanceAs (Decidable (_ ∧ _))

/-- The `SET` of `claimDueReports`. -/
def claim (row : Report) (now : Time) : Report :=
  { row with nextAttemptAt := now + CLAIM_LEASE_MINUTES * minuteMs, attempts := row.attempts + 1 }

end Report

/-- The span of `random() * interval '4 hours'`. -/
abbrev Jitter := Fin (4 * 60 * minuteMs)

/-- `TOMORROW_UTC`. -/
def tomorrowUtc (now : Time) : Time := (utcDay now + 1) * dayMs

/-- `TOMORROW_WITH_JITTER`. -/
def tomorrowWithJitter (now : Time) (jitter : Jitter) : Time :=
  tomorrowUtc now + 60 * minuteMs + jitter

/-- How `deliverReport` leaves the row. -/
inductive Ending
  | rescheduled (nextAttemptAt : Time) (delivered : List Text)
  | deferred (delivered : List Text)
  | released (delivered : List Text)
  | removed

/-- `rescheduleReport`, `deferReport`, `releaseReport` and `deleteReport`, at `now`. -/
def Ending.write (row : Report) (now : Time) (jitter : Jitter) : Ending → Option Report
  | rescheduled nextAttemptAt delivered => some { row.setDelivered delivered with nextAttemptAt }
  | deferred delivered =>
    some { row.setDelivered delivered with
      nextAttemptAt := tomorrowWithJitter now jitter
      attempts := row.attempts - 1 }
  | released delivered =>
    some { row.setDelivered delivered with nextAttemptAt := now, attempts := row.attempts - 1 }
  | removed => none

/-- `retryOrDrop`. -/
def retryOrDrop (row : Report) (delivered : List Text) (now : Time) : Ending :=
  match backoff? row.attempts with
  | none => .removed
  | some backoff =>
    if MAX_SEND_ATTEMPTS ≤ row.attempts then .removed
    else .rescheduled (now + backoff * minuteMs) delivered

/-! ## A run -/

/-- `ReserveOutcome`. -/
inductive ReserveOutcome
  | reserved | dailyCap | destinationCap
  deriving DecidableEq

/-- `ReportSendOutcome`. -/
inductive ReportSendOutcome
  | sent
  | skipped (reason : Text)
  | failed (reason : Text)
  deriving DecidableEq

/-- `true` for a delivery that is tried again. -/
def ReportSendOutcome.isFailed : ReportSendOutcome → Bool
  | failed _ => true
  | _ => false

/-- What a run meets at one address: the clock at its budget check, whether the address is
suppressed, what the caps say, how the delivery goes, and the clock when it is through. -/
structure Answer where
  checkedAt : Time
  suppressed : Bool
  slot : ReserveOutcome
  outcome : ReportSendOutcome
  finishedAt : Time

/-- The addresses of a lookup. -/
def Lookup.rua : Lookup → List Rua
  | .record rua => rua
  | _ => []

/-- The clock goes forward from `start` to `stop` along the addresses. -/
def Forward (answers : Rua → Answer) (stop : Time) : Time → List Rua → Prop
  | start, [] => start ≤ stop
  | start, rua :: rest =>
    start ≤ (answers rua).checkedAt ∧ (answers rua).checkedAt ≤ (answers rua).finishedAt ∧
      Forward answers stop (answers rua).finishedAt rest

instance Forward.decidable (answers : Rua → Answer) (stop : Time) :
    ∀ (start : Time) (ruas : List Rua), Decidable (Forward answers stop start ruas)
  | start, [] => inferInstanceAs (Decidable (start ≤ stop))
  | _, _ :: rest =>
    @instDecidableAnd _ _ _ (@instDecidableAnd _ _ _ (Forward.decidable answers stop _ rest))

section Model

variable (toLowerCase : Text → Text) (decodeURIComponent : Text → Option Text)
  (parseUrl : Text → Option Url) (ρ : Type)

/-- One run on the report, from its claim to the end of `deliverReport`, within the claim's lease. -/
structure ReportRun where
  claimedAt : Time
  /-- What the TXT lookup answers. -/
  txt : Except Text (List (List Text))
  results : List ρ
  contactEmail : Option Text
  /-- `body.byteLength`. -/
  bodyLength : ℕ
  deadlineAt : Time
  answers : Rua → Answer
  endedAt : Time
  jitter : Jitter
  forward : Forward answers endedAt claimedAt
    (lookupTlsRptRecord toLowerCase decodeURIComponent parseUrl txt).rua
  leased : endedAt ≤ claimedAt + CLAIM_LEASE_MINUTES * minuteMs

variable {toLowerCase decodeURIComponent parseUrl ρ}

namespace ReportRun

variable (r : ReportRun toLowerCase decodeURIComponent parseUrl ρ)

/-- What the lookup said. -/
def lookup : Lookup := lookupTlsRptRecord toLowerCase decodeURIComponent parseUrl r.txt

/-- The mail address is on the suppression list. -/
def suppresses (rua : Rua) : Bool := rua.address?.isSome && (r.answers rua).suppressed

/-- Nothing is sent: there is nothing to report, or nobody to report as. -/
def empty : Prop := r.results = [] ∨ r.contactEmail = none

instance : Decidable r.empty :=
  match h : r.results, h' : r.contactEmail with
  | [], _ => isTrue (.inl h)
  | _ :: _, none => isTrue (.inr h')
  | _ :: _, some _ => isFalse (by simp [empty, h, h'])

end ReportRun

/-- What became of a report at one address, at one attempt. -/
inductive Fate
  | suppressed
  | tried (outcome : ReportSendOutcome)
  deriving DecidableEq

/-- An address that a run dealt with. -/
structure Handled where
  key : Text
  attempt : ℕ
  startedAt : Time
  finishedAt : Time
  fate : Fate
  deriving DecidableEq

namespace Handled

/-- The report went out. -/
def sent (e : Handled) : Bool := e.fate = .tried .sent

/-- The delivery failed. -/
def failed (e : Handled) : Bool :=
  match e.fate with
  | .tried outcome => outcome.isFailed
  | .suppressed => false

/-- The report was on its way to the address. -/
def tried (e : Handled) : Bool := e.fate ≠ .suppressed

end Handled

/-- Why the loop stopped before its end. -/
inductive Cut
  | released | capped
  deriving DecidableEq

/-- The loop's variables, and what it did. -/
structure Loop where
  done : List Text
  failures : ℕ
  waiting : ℕ
  cut : Option Cut
  handled : List Handled

section Hash

variable (sha256 : Text → Fin 32 → UInt8)

/-- `ruaHash`. -/
def ruaHash (key : Text) : Text := (Text.toHex (List.ofFn (sha256 key))).take 16

/-- The loop before its first address. `new Set(delivered)` keeps what comes first. -/
def Loop.start (delivered : List Text) : Loop where
  done := delivered.reverse.dedup.reverse
  failures := 0
  waiting := 0
  cut := none
  handled := []

/-- The address is through, one way or the other. -/
def Loop.handle (l : Loop) (e : Handled) : Loop :=
  if e.failed then { l with failures := l.failures + 1, handled := l.handled ++ [e] }
  else { l with done := l.done ++ [ruaHash sha256 e.key], handled := l.handled ++ [e] }

variable (r : ReportRun toLowerCase decodeURIComponent parseUrl ρ)

/-- The loop's body. -/
def visit (attempt : ℕ) (l : Loop) (rua : Rua) : Loop :=
  let answer := r.answers rua
  let handled := Handled.mk rua.key attempt answer.checkedAt answer.finishedAt
  if l.cut.isSome then l
  else if ruaHash sha256 rua.key ∈ l.done then l
  else if r.deadlineAt ≤ answer.checkedAt then { l with cut := some .released }
  else if r.suppresses rua then l.handle sha256 (handled .suppressed)
  else
    match answer.slot with
    | .dailyCap => { l with cut := some .capped }
    | .destinationCap => { l with waiting := l.waiting + 1 }
    | .reserved => l.handle sha256 (handled (.tried answer.outcome))

/-- The loop over the record's addresses. -/
def visits (row : Report) (ruas : List Rua) : Loop :=
  ruas.foldl (visit sha256 r row.attempts) (Loop.start row.deliveredOf)

/-- What follows the loop. -/
def endingOf (row : Report) (l : Loop) : Ending :=
  match l.cut with
  | some .released => .released l.done
  | some .capped => .deferred l.done
  | none =>
    if 0 < l.failures then retryOrDrop row l.done r.endedAt
    else if 0 < l.waiting then .deferred l.done
    else .removed

/-- `deliverReport`, on a claimed row. -/
def deliverReport (row : Report) : Loop × Ending :=
  match r.lookup with
  | .none => (Loop.start row.deliveredOf, .removed)
  | .error _ => (Loop.start row.deliveredOf, retryOrDrop row row.deliveredOf r.endedAt)
  | .record ruas =>
    if r.empty then (Loop.start row.deliveredOf, .removed)
    else if MAX_REPORT_BYTES < r.bodyLength then (Loop.start row.deliveredOf, .removed)
    else
      let l := visits sha256 r row ruas
      (l, endingOf r row l)

/-! ## Sequences of runs -/

/-- The report over its runs: its row while there is one, what its runs did, how many of them failed
(in the lookup or in a delivery), and the run that deleted it. -/
structure Tracked (toLowerCase : Text → Text) (decodeURIComponent : Text → Option Text)
    (parseUrl : Text → Option Url) (ρ : Type) where
  report : Option Report
  handled : List Handled
  failedRuns : ℕ
  deletedBy : Option (ReportRun toLowerCase decodeURIComponent parseUrl ρ)

/-- A report that no run has claimed yet. -/
def Tracked.fresh (policyDomain : Text) (day : ℕ) (nextAttemptAt : Time) :
    Tracked toLowerCase decodeURIComponent parseUrl ρ where
  report := some { policyDomain, day, nextAttemptAt, attempts := 0, deliveredRua := [] }
  handled := []
  failedRuns := 0
  deletedBy := none

/-- What happens to the report: a run, or `deferUnsentReports` of one that met the daily cap. -/
inductive Event (toLowerCase : Text → Text) (decodeURIComponent : Text → Option Text)
    (parseUrl : Text → Option Url) (ρ : Type)
  | run (r : ReportRun toLowerCase decodeURIComponent parseUrl ρ)
  | deferUnsent (now : Time) (jitter : Jitter)

/-- The lookup or a delivery of the run failed. -/
def ReportRun.failed (l : Loop) : Bool :=
  decide (0 < l.failures) ||
    match r.lookup with
    | .error _ => true
    | _ => false

/-- A run on a row that it has claimed. -/
def Tracked.deliver (s : Tracked toLowerCase decodeURIComponent parseUrl ρ) (row : Report) :
    Tracked toLowerCase decodeURIComponent parseUrl ρ :=
  let (l, ending) := deliverReport sha256 r row
  let written := ending.write row r.endedAt r.jitter
  { report := written
    handled := s.handled ++ l.handled
    failedRuns := s.failedRuns + if r.failed l then 1 else 0
    deletedBy := if written.isSome then none else some r }

/-- One event. A run that the row is not due for claims nothing. -/
def Tracked.step (s : Tracked toLowerCase decodeURIComponent parseUrl ρ) :
    Event toLowerCase decodeURIComponent parseUrl ρ →
      Tracked toLowerCase decodeURIComponent parseUrl ρ
  | .run r =>
    match s.report with
    | none => s
    | some row => if row.due r.claimedAt then s.deliver sha256 r (row.claim r.claimedAt) else s
  | .deferUnsent now jitter =>
    { s with
      report := s.report.map fun row =>
        if row.day < utcDay now ∧ row.nextAttemptAt < tomorrowUtc now then
          { row with nextAttemptAt := tomorrowWithJitter now jitter }
        else row }

end Hash

end Model

end BunMail.TlsRpt
