import BunMail.Lib.Run
import BunMail.Lib.Text

/-!
# Webhook deliveries

One row of `webhook_deliveries` and the workers on it.  A claim counts the attempt and pushes
`next_attempt_at` by the lock; the HTTP attempt follows outside any transaction, and
`recordAttempt` writes its outcome by the row's id alone, with the count from the claim.
-/

namespace BunMail.Webhooks

/-! ## The schedule -/

/-- `RETRY_BACKOFF_MINUTES`. -/
def RETRY_BACKOFF_MINUTES : List ℕ := [1, 5, 15, 60]

/-- `MAX_DELIVERY_ATTEMPTS`. -/
def MAX_DELIVERY_ATTEMPTS : ℕ := RETRY_BACKOFF_MINUTES.length + 1

/-- `ATTEMPT_LOCK_MS`. -/
def ATTEMPT_LOCK_MS : ℕ := 30000

/-- `RESPONSE_PREVIEW_LIMIT`. -/
def RESPONSE_PREVIEW_LIMIT : ℕ := 2048

/-- `nextAttemptAt`: `none` once the count has reached the cap. -/
def nextAttemptAt (attempts : ℕ) (now : Time) : Option Time :=
  if attempts = 0 then none
  else RETRY_BACKOFF_MINUTES[attempts - 1]?.map fun minutes => now + minutes * 60000

theorem nextAttemptAt_eq_none {attempts : ℕ} {now : Time}
    (h : nextAttemptAt attempts now = none) : attempts = 0 ∨ MAX_DELIVERY_ATTEMPTS ≤ attempts := by
  unfold nextAttemptAt at h
  split_ifs at h with h0
  · exact .inl h0
  · rw [Option.map_eq_none_iff, List.getElem?_eq_none_iff] at h
    unfold MAX_DELIVERY_ATTEMPTS
    omega

/-! ## The row -/

inductive DeliveryStatus
  | pending | delivered | failed
  deriving DecidableEq, Repr

/-- The columns the worker and the replay write. -/
structure WebhookDelivery where
  status : DeliveryStatus
  attempts : ℕ
  lastError : Option Text
  lastResponseStatus : Option ℕ
  lastResponseBody : Option Text
  nextAttemptAt : Time
  deliveredAt : Option Time
  updatedAt : Time
  deriving DecidableEq

/-- `AttemptOutcome`. -/
structure AttemptOutcome where
  ok : Bool
  status : Option ℕ
  error : Option Text
  bodyPreview : Option Text
  deriving DecidableEq

/-- `outcome.error?.slice(0, RESPONSE_PREVIEW_LIMIT) ?? "unknown"`. -/
def AttemptOutcome.lastError (outcome : AttemptOutcome) : Text :=
  (outcome.error.map (Text.sliceUnits RESPONSE_PREVIEW_LIMIT)).getD "unknown"

/-- An empty preview is not stored. -/
def AttemptOutcome.lastResponseBody (outcome : AttemptOutcome) : Option Text :=
  outcome.bodyPreview.filter (· ≠ [])

/-- What the claim's transaction makes of the row: the row it leaves, and the count from before it
when the row goes out to the worker.  `deliverable`: the webhook is there, it and its API key are
active. -/
def claimDueDeliveries (dbNow now : Time) (deliverable : Bool) (row : WebhookDelivery) :
    WebhookDelivery × Option ℕ :=
  if row.status = .pending ∧ row.nextAttemptAt ≤ dbNow then
    let claimed := { row with
      nextAttemptAt := now + ATTEMPT_LOCK_MS
      attempts := row.attempts + 1
      updatedAt := now }
    if claimed.attempts > MAX_DELIVERY_ATTEMPTS then
      ({ claimed with
          status := .failed
          attempts := MAX_DELIVERY_ATTEMPTS
          lastError := some "attempt limit reached: earlier attempts were interrupted"
          updatedAt := now }, none)
    else if !deliverable then
      ({ claimed with
          status := .failed
          -- no request is made: the increment is undone
          attempts := claimed.attempts - 1
          lastError := some "webhook or its API key inactive at delivery time"
          updatedAt := now }, none)
    else (claimed, some (claimed.attempts - 1))
  else (row, none)

/-- `recordAttempt`: an update by the row's id. -/
def recordAttempt (outcome : AttemptOutcome) (priorAttempts : ℕ) (now : Time)
    (row : WebhookDelivery) : WebhookDelivery :=
  let newAttempts := priorAttempts + 1
  if outcome.ok then
    { row with
      status := .delivered
      attempts := newAttempts
      lastError := none
      lastResponseStatus := outcome.status
      lastResponseBody := outcome.lastResponseBody
      deliveredAt := some now
      updatedAt := now }
  else
    match nextAttemptAt newAttempts now with
    | none =>
      { row with
        status := .failed
        attempts := newAttempts
        lastError := some outcome.lastError
        lastResponseStatus := outcome.status
        lastResponseBody := outcome.lastResponseBody
        updatedAt := now }
    | some next =>
      { row with
        attempts := newAttempts
        lastError := some outcome.lastError
        lastResponseStatus := outcome.status
        lastResponseBody := outcome.lastResponseBody
        nextAttemptAt := next
        updatedAt := now }

/-- `replayDelivery`, once the caller owns the delivery and is within its budget. -/
def replayDelivery (dbNow now : Time) (row : WebhookDelivery) : WebhookDelivery :=
  { row with
    status := .pending
    attempts := 0
    lastError := none
    lastResponseStatus := none
    lastResponseBody := none
    deliveredAt := none
    nextAttemptAt := dbNow
    updatedAt := now }

@[simp] theorem recordAttempt_attempts (outcome : AttemptOutcome) (prior : ℕ) (now : Time)
    (row : WebhookDelivery) : (recordAttempt outcome prior now row).attempts = prior + 1 := by
  unfold recordAttempt
  dsimp only
  split_ifs
  · rfl
  · cases nextAttemptAt (prior + 1) now <;> rfl

/-- Only an attempt that succeeded makes a row delivered. -/
theorem recordAttempt_delivered {outcome : AttemptOutcome} {prior : ℕ} {now : Time}
    {row : WebhookDelivery} (h : (recordAttempt outcome prior now row).status = .delivered) :
    outcome.ok = true ∨ row.status = .delivered := by
  unfold recordAttempt at h
  dsimp only at h
  split_ifs at h with hok
  · exact .inl hok
  · cases hn : nextAttemptAt (prior + 1) now with
    | none => rw [hn] at h; cases h
    | some next => rw [hn] at h; exact .inr h

/-- Everything a claim can do: nothing; close the row, its count as before; or count an attempt and
hand the row out. -/
theorem claimDueDeliveries_cases (dbNow now : Time) (deliverable : Bool) (row : WebhookDelivery)
    (hmax : row.attempts ≤ MAX_DELIVERY_ATTEMPTS) :
    claimDueDeliveries dbNow now deliverable row = (row, none) ∨
      (∃ r, claimDueDeliveries dbNow now deliverable row = (r, none) ∧ row.status = .pending ∧
        r.status = .failed ∧ r.attempts = row.attempts) ∨
      ∃ r, claimDueDeliveries dbNow now deliverable row = (r, some row.attempts) ∧
        row.status = .pending ∧ r.status = .pending ∧ r.attempts = row.attempts + 1 ∧
        r.attempts ≤ MAX_DELIVERY_ATTEMPTS := by
  unfold claimDueDeliveries
  dsimp only
  split_ifs with hdue hover hoff
  · refine .inr (.inl ⟨_, rfl, hdue.1, rfl, ?_⟩)
    dsimp only
    omega
  · exact .inr (.inl ⟨_, rfl, hdue.1, rfl, rfl⟩)
  · exact .inr (.inr ⟨_, rfl, hdue.1, hdue.1, rfl, Nat.le_of_not_lt hover⟩)
  · exact .inl rfl

/-! ## The workers -/

/-- A row handed out to a worker: the count from before the claim, and how often the row had been
replayed by then. -/
structure Claim where
  prior : ℕ
  replays : ℕ
  deriving DecidableEq

/-- The row, the claims whose HTTP attempt is yet to start and those in flight, how often the row
has been replayed, and how many attempts were started since. -/
structure State where
  row : WebhookDelivery
  waiting : List Claim
  inFlight : List Claim
  replays : ℕ
  started : ℕ
  deriving DecidableEq

inductive Action
  | claimDueDeliveries (dbNow now : Time) (deliverable : Bool)
  /-- A worker starts the HTTP attempt of its claim. -/
  | performHttpAttempt (c : Claim)
  | recordAttempt (c : Claim) (outcome : AttemptOutcome) (now : Time)
  /-- `recordAttempt` throws: nothing is persisted, and the worker goes on. -/
  | recordThrows (c : Claim)
  | replayDelivery (dbNow now : Time)
  deriving DecidableEq

/-- A row just enqueued. -/
def enqueued (now : Time) : State where
  row :=
    { status := .pending, attempts := 0, lastError := none, lastResponseStatus := none
      lastResponseBody := none, nextAttemptAt := now, deliveredAt := none, updatedAt := now }
  waiting := []
  inFlight := []
  replays := 0
  started := 0

/-- One action of one worker, or a replay. -/
def step (s : State) : Action → State
  | .claimDueDeliveries dbNow now deliverable =>
    let claimed := Webhooks.claimDueDeliveries dbNow now deliverable s.row
    { s with
      row := claimed.1
      waiting := (claimed.2.map fun prior => ⟨prior, s.replays⟩).toList ++ s.waiting }
  | .performHttpAttempt c =>
    if c ∈ s.waiting then
      { s with
        waiting := s.waiting.erase c
        inFlight := c :: s.inFlight
        started := s.started + 1 }
    else s
  | .recordAttempt c outcome now =>
    if c ∈ s.inFlight then
      { s with
        row := Webhooks.recordAttempt outcome c.prior now s.row
        inFlight := s.inFlight.erase c }
    else s
  | .recordThrows c => { s with inFlight := s.inFlight.erase c }
  | .replayDelivery dbNow now =>
    { s with
      row := Webhooks.replayDelivery dbNow now s.row
      replays := s.replays + 1
      started := 0 }

end BunMail.Webhooks
