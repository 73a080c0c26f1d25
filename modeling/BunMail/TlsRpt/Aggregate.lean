import BunMail.Lib.Tally
import BunMail.TlsRpt.ReportDelivery

/-!
# Counting sessions for a TLS report

`tls-rpt-aggregate.ts`, `recordObservation` of `tls-rpt-store.service.ts` and `buildReport` of
`tls-rpt-report.ts`.  The report's row is locked by its upsert until the commit, so the transactions of
one report take effect one after the other.
-/

namespace BunMail.TlsRpt.Aggregate

open Calendar

def MAX_POLICIES_PER_REPORT : ℕ := 4

def MAX_DETAIL_ROWS_PER_REPORT : ℕ := 100

def MAX_POLICY_TEXT_LENGTH : ℕ := 4000

/-! ## Sessions -/

/-- `TlsRptPolicyType`. -/
inductive PolicyType
  | sts | noPolicyFound
  deriving DecidableEq

def PolicyType.text : PolicyType → Text
  | sts => "sts"
  | noPolicyFound => "no-policy-found"

/-- `TlsRptFailureType`. -/
inductive FailureType
  | starttlsNotSupported | certificateHostMismatch | certificateExpired | certificateNotTrusted
  | validationFailure | stsPolicyFetchError | stsPolicyInvalid | stsWebpkiInvalid
  deriving DecidableEq

/-- `TlsRptResultType`. -/
inductive ResultType
  | success
  | failure (type : FailureType)
  deriving DecidableEq

/-- `TlsRptReasonCode`. -/
inductive ReasonCode
  | none | mxNotInPolicy | starttlsRefused | certificateNotYetValid | starttlsHandshakeTimeout
  | tlsHandshakeFailed

def ReasonCode.text : ReasonCode → Text
  | none => ""
  | mxNotInPolicy => "mx-not-in-policy"
  | starttlsRefused => "starttls-refused"
  | certificateNotYetValid => "certificate-not-yet-valid"
  | starttlsHandshakeTimeout => "starttls-handshake-timeout"
  | tlsHandshakeFailed => "tls-handshake-failed"

/-- The fields of `TlsRptPolicy` that identify it. -/
structure Policy where
  type : PolicyType
  policyString : List Text
  mxHost : List Text

/-- `TlsRptObservation`. -/
inductive Observation
  | success
  | failure (result : FailureType) (receivingMxHostname receivingIp : Text)
      (failureReasonCode : ReasonCode)

def Observation.result : Observation → ResultType
  | success => .success
  | failure result _ _ _ => .failure result

/-! ## The counters -/

structure ResultKey where
  policyType : PolicyType
  policyHash : Text
  resultType : ResultType
  receivingMxHostname : Text
  receivingIp : Text
  failureReasonCode : Text
  deriving DecidableEq

namespace ResultKey

/-- A policy within a report. -/
def policyKey (key : ResultKey) : Text := key.policyType.text ++ ' ' :: key.policyHash

def isUndetailedFailure (key : ResultKey) : Bool :=
  decide (key.resultType ≠ .success) && decide (key.receivingMxHostname = []) &&
    decide (key.receivingIp = []) && decide (key.failureReasonCode = [])

/-- A failure with details. -/
def isDetailed (key : ResultKey) : Bool :=
  decide (key.resultType ≠ .success) && !key.isUndetailedFailure

end ResultKey

/-- The loop of `joinBounded`, with the text so far. -/
def joinLines (text : Text) : List Text → Text
  | [] => text
  | line :: lines =>
    let next := if text = [] then line else text ++ '\n' :: line
    if MAX_POLICY_TEXT_LENGTH < Text.utf16Length next then text else joinLines next lines

def joinBounded (lines : List Text) : Text := joinLines [] lines

section Keys

variable (sha256 : Text → Fin 32 → UInt8) (stringify : Text → List Text → List Text → Text)

def policyHash (policy : Policy) : Text :=
  (Text.toHex (List.ofFn (sha256 (stringify policy.type.text policy.policyString policy.mxHost)))).take 32

def resultKeyOf (policy : Policy) : Observation → ResultKey
  | .success => ⟨policy.type, policyHash sha256 stringify policy, .success, [], [], []⟩
  | .failure result receivingMxHostname receivingIp failureReasonCode =>
    ⟨policy.type, policyHash sha256 stringify policy, .failure result, receivingMxHostname, receivingIp,
      failureReasonCode.text⟩

end Keys

def resultKeyFor (existing : List ResultKey) (candidate : ResultKey) : Option ResultKey :=
  let policies := (existing.map ResultKey.policyKey).toFinset
  if candidate ∈ existing then some candidate
  else if candidate.policyKey ∉ policies ∧ MAX_POLICIES_PER_REPORT ≤ policies.card then none
  else if candidate.resultType = .success ∨ candidate.isUndetailedFailure then some candidate
  else if existing.countP ResultKey.isDetailed < MAX_DETAIL_ROWS_PER_REPORT then some candidate
  else some { candidate with receivingMxHostname := [], receivingIp := [], failureReasonCode := [] }

/-! ## The tables -/

/-- The columns of `tlsrpt_reports` that recording reads or writes. -/
structure ReportRow where
  id : Text
  day : ℕ
  policyDomain : Text
  rfcReportId : Text
  nextAttemptAt : Time
  deriving DecidableEq

/-- The columns of the report's unique index. -/
def ReportRow.slot (row : ReportRow) : ℕ × Text := (row.day, row.policyDomain)

/-- A row of `tlsrpt_results`. -/
structure ResultRow where
  reportId : Text
  key : ResultKey
  policyString : Text
  mxHost : Text
  sessionCount : ℕ

/-- The columns of the counter's unique index. -/
def ResultRow.slot (row : ResultRow) : Text × ResultKey := (row.reportId, row.key)

structure Store where
  reports : Table ReportRow.slot
  results : Table ResultRow.slot

def Store.init : Store := ⟨Table.empty, Table.empty⟩

/-- The rows of `loadReportResults`, in the order of the table. -/
def Store.resultsOf (s : Store) (id : Text) : List ResultRow := s.results.rows.filter (·.reportId = id)

def Store.readKeys (s : Store) (id : Text) : List ResultKey := (s.resultsOf id).map ResultRow.key

/-- `reportDueAt`, with the jitter it draws. -/
def reportDueAt (day : ℕ) (random : Jitter) : Time := (day + 1) * dayMs + 60 * minuteMs + random

/-- The arguments of `recordObservation`, what it draws, and whether a statement of its transaction
fails. -/
structure Call where
  domain : Text
  policy : Policy
  observation : Observation
  seenAt : Time
  random : Jitter
  id : Text
  rfcReportId : Text
  fails : Bool

/-- The report of a call. -/
def Call.slot (c : Call) : ℕ × Text := (utcDay c.seenAt, c.domain)

/-- The row the upsert inserts. -/
def Call.newReport (c : Call) : ReportRow where
  id := c.id
  day := utcDay c.seenAt
  policyDomain := c.domain
  rfcReportId := c.rfcReportId
  nextAttemptAt := reportDueAt (utcDay c.seenAt) c.random

/-- The upsert of the report and the id it returns.  A new row needs an id of its own. -/
def Store.upsertReport (s : Store) (c : Call) : Option (Table ReportRow.slot × Text) :=
  match s.reports.find? c.slot with
  | some row => some (s.reports, row.id)
  | none =>
    if c.id ∈ s.reports.rows.map ReportRow.id then none
    else some (s.reports.insert c.newReport, c.id)

/-- What the call returns, or that it throws. -/
inductive Outcome
  | recorded | dropped | failed
  deriving DecidableEq

def ResultRow.increment (row : ResultRow) : ResultRow := { row with sessionCount := row.sessionCount + 1 }

theorem ResultRow.slot_increment (row : ResultRow) : row.increment.slot = row.slot := rfl

/-- The counter the call inserts. -/
def Call.newResult (c : Call) (reportId : Text) (key : ResultKey) : ResultRow where
  reportId := reportId
  key := key
  policyString := joinBounded c.policy.policyString
  mxHost := joinBounded c.policy.mxHost
  sessionCount := 1

/-- The upsert of a counter. -/
def Store.count (s : Store) (row : ResultRow) : Table ResultRow.slot :=
  s.results.upsert row ResultRow.increment fun r _ => r.slot_increment

section Record

variable (sha256 : Text → Fin 32 → UInt8) (stringify : Text → List Text → List Text → Text)

/-- A failed transaction is rolled back.  A dropped session leaves its report. -/
def recordObservation (s : Store) (c : Call) : Outcome × Store :=
  if c.fails then (.failed, s)
  else
    match s.upsertReport c with
    | none => (.failed, s)
    | some (reports, reportId) =>
      match resultKeyFor (s.readKeys reportId) (resultKeyOf sha256 stringify c.policy c.observation) with
      | none => (.dropped, { s with reports })
      | some key => (.recorded, ⟨reports, s.count (c.newResult reportId key)⟩)

/-- The tables, and the recorded calls. -/
structure Recording where
  store : Store
  log : List Call

def Recording.init : Recording := ⟨Store.init, []⟩

def Recording.step (r : Recording) (c : Call) : Recording :=
  match recordObservation sha256 stringify r.store c with
  | (.recorded, store) => ⟨store, r.log ++ [c]⟩
  | (_, store) => ⟨store, r.log⟩

end Record

/-! ## The report -/

structure FailureDetailJson where
  resultType : ResultType
  sendingMtaIp : Option Text
  receivingMxHostname : Option Text
  receivingIp : Option Text
  failedSessionCount : ℕ
  failureReasonCode : Option Text

structure PolicyJson where
  policyType : PolicyType
  policyString : Option (List Text)
  policyDomain : Text
  mxHost : Option (List Text)
  totalSuccessfulSessionCount : ℕ
  totalFailureSessionCount : ℕ
  failureDetails : Option (List FailureDetailJson)

structure TlsRptReportJson where
  organizationName : Text
  startDatetime : Text
  endDatetime : Text
  contactInfo : Text
  reportId : Text
  policies : List PolicyJson

structure ReportInput where
  organizationName : Text
  contactEmail : Text
  rfcReportId : Text
  day : Text
  policyDomain : Text
  results : List ResultRow
  sendingIps : List Text

/-- Stored text back to its lines. -/
def lines (text : Text) : List Text := if text = [] then [] else text.splitOn '\n'

/-- A field that is left out when it is empty. -/
def unlessEmpty {α : Type} (l : List α) : Option (List α) := if l = [] then none else some l

section Build

variable (isIP : Text → ℕ)

def sendingIpFor (receivingIp : Text) (sendingIps : List Text) : Option Text :=
  (sendingIps.find? fun ip => isIP ip = isIP receivingIp).or sendingIps.head?

def failureDetail (row : ResultRow) (sendingIps : List Text) : FailureDetailJson where
  resultType := row.key.resultType
  sendingMtaIp :=
    if row.key.receivingIp = [] then none else sendingIpFor isIP row.key.receivingIp sendingIps
  receivingMxHostname := unlessEmpty row.key.receivingMxHostname
  receivingIp := unlessEmpty row.key.receivingIp
  failedSessionCount := row.sessionCount
  failureReasonCode := unlessEmpty row.key.failureReasonCode

def ResultRow.isFailure (row : ResultRow) : Bool := decide (row.key.resultType ≠ .success)

def ResultRow.isSuccess (row : ResultRow) : Bool := decide (row.key.resultType = .success)

/-- The failures of a policy, the largest count first. -/
def failuresOf (rows : List ResultRow) : List ResultRow :=
  (rows.filter ResultRow.isFailure).mergeSort fun a b => decide (b.sessionCount ≤ a.sessionCount)

/-- The entry of a policy's rows. -/
def policyEntry (input : ReportInput) (rows : List ResultRow) : Option PolicyJson :=
  match rows with
  | [] => none
  | first :: _ =>
    let failures := failuresOf rows
    some
      { policyType := first.key.policyType
        policyString := unlessEmpty (lines first.policyString)
        policyDomain := input.policyDomain
        mxHost := unlessEmpty (lines first.mxHost)
        totalSuccessfulSessionCount := ((rows.filter ResultRow.isSuccess).map ResultRow.sessionCount).sum
        totalFailureSessionCount := (failures.map ResultRow.sessionCount).sum
        failureDetails := unlessEmpty (failures.map fun row => failureDetail isIP row input.sendingIps) }

def buildReport (input : ReportInput) : TlsRptReportJson where
  organizationName := input.organizationName
  startDatetime := input.day ++ "T00:00:00Z".toList
  endDatetime := input.day ++ "T23:59:59Z".toList
  contactInfo := input.contactEmail
  reportId := input.rfcReportId
  policies := (Table.groupBy (fun row => row.key.policyKey) input.results).rows.filterMap fun group =>
    policyEntry isIP input group.2

end Build

end BunMail.TlsRpt.Aggregate
