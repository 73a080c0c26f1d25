import BunMail.Emails.Mailer
import BunMail.Emails.QueueClaim
import BunMail.Suppressions.Suppression

/-!
# The outcome of an attempt on its row

`decideRowOutcome` reads the delivery state an attempt left: everything pending was held back by
the rate budget (`deferred`), something failed for now and the email is young enough (`retry`), or
the row is done (`terminal`), and then every entry still pending is flipped to `failed`.
-/

namespace BunMail.Emails

open SmtpError
open SuppressionList (BounceType)

/-! ## Delays -/

/-- `RETRY_SCHEDULE_MINUTES`. -/
def RETRY_SCHEDULE_MINUTES : List ℕ := [5, 15, 30, 60, 120, 240]

/-- The wait after the given attempt, or none when it would make the email too old. -/
def nextRetryDelayMs (attempt : ℕ) (ageMs maxAgeMs : ℚ) : Option ℕ :=
  let last := RETRY_SCHEDULE_MINUTES.length - 1
  let delayMs := (RETRY_SCHEDULE_MINUTES[min (max attempt 1 - 1) last]?).getD 240 * 60000
  if ageMs + delayMs > maxAgeMs then none else some delayMs

/-- The wait of a deferred email: until its bucket's next token, plus jitter. -/
def deferralDelayMs (waitMs random : ℚ) : ℕ :=
  max 1 (waitMs + random * max 250 (waitMs * (1 / 10))).ceil.toNat

/-! ## Events -/

/-- A webhook event of the queue, with its payload. -/
inductive WebhookEvent
  | emailSent (emailId from_ to_ subject messageId : Text) (tags : Option (List (Text × Text)))
  | emailFailed (emailId from_ to_ subject error : Text) (blocked : Option Bool)
      (tags : Option (List (Text × Text)))
  | emailBounced (emailId to_ recipient : Text) (bounceType : BounceType)
      (status diagnostic : Text) (suppressionId : Option Text) (tags : Option (List (Text × Text)))
  deriving DecidableEq

def WebhookEvent.isSent : WebhookEvent → Bool
  | .emailSent .. => true
  | _ => false

def WebhookEvent.isFailed : WebhookEvent → Bool
  | .emailFailed .. => true
  | _ => false

def WebhookEvent.isBounced : WebhookEvent → Bool
  | .emailBounced .. => true
  | _ => false

/-! ## Reading the state -/

/-- Each entry's status before the attempt. -/
abbrev PriorStatuses := Table (Prod.fst : Text × DeliveryGroupStatus → Text)

/-- What one SMTP attempt produced. -/
structure SentAttempt where
  deliveryState : DeliveryState
  messageId : Text
  priorStatuses : PriorStatuses
  deferred : Option Deferred

/-- The entries the rate budget held back. -/
def SentAttempt.deferredKeys (sent : SentAttempt) : List Text :=
  (sent.deferred.map Deferred.keys).getD []

/-- The stored classification, or that of the stored text. -/
def failureOf (group : DeliveryGroup) : Option ParsedSmtpError :=
  match group.failureKind with
  | some kind => some ⟨kind, group.failureCode.getD []⟩
  | none => group.lastError.bind parseSmtpError

/-- The earliest delivery, if one was. -/
def firstDeliveredAt (state : DeliveryState) : Option Time :=
  ((groupsOf state).filterMap DeliveryGroup.deliveredAt).min?

/-- Some entry was sent before the attempt. -/
def anySentBefore (priorStatuses : PriorStatuses) : Bool :=
  priorStatuses.rows.any (·.2 = .sent)

/-- One entry of a digest. -/
def digestEntry (key : Text) (group : DeliveryGroup) (reason : Text) : Text :=
  key ++ " (".toList ++ Text.decimal group.recipients.length ++ " rcpt): ".toList ++ reason

/-- `<verb> <n> group(s): ...`, empty without entries. -/
def digest (verb : Text) (entries : List Text) : Text :=
  if entries = [] then []
  else verb ++ ' ' :: Text.decimal entries.length ++ " group(s): ".toList ++ Text.join " | " entries

/-- The digest of the entries still in retry. -/
def summariseRetries (state : DeliveryState) (deferred : List Text) : Text :=
  digest "Retrying" ((state.rows.filter (·.2.status = .retry)).map fun (key, group) =>
    digestEntry key group (if key ∈ deferred then "deferred by the provider rate budget"
      else group.lastError.getD "?"))

/-- The digest of the failed entries. -/
def summariseFailures (state : DeliveryState) : Text :=
  digest "Failed" ((state.rows.filter (·.2.status = .failed)).map fun (key, group) =>
    digestEntry key group (group.lastError.getD "?"))

/-! ## The decision -/

/-- `RATE_BUDGET_EXHAUSTED`. -/
def RATE_BUDGET_EXHAUSTED : Text :=
  "Not sent within the retry window: provider rate budget (MAIL_MX_RATE_PER_MIN)"

/-- A pending entry at the end of the retry window. -/
def flipGroup (deferred : List Text) (key : Text) (group : DeliveryGroup) : DeliveryGroup :=
  if group.status ≠ .retry then group
  else if key ∈ deferred then
    { group with status := .failed, lastError := some (group.lastError.getD RATE_BUDGET_EXHAUSTED) }
  else { group with status := .failed }

/-- The state with every pending entry failed. -/
def finalStateOf (state : DeliveryState) (deferred : List Text) : DeliveryState :=
  state.mapValues (flipGroup deferred)

inductive RowOutcome
  | deferred (values : RowValues) (delayMs deferredGroups : ℕ)
  | retry (values : RowValues) (events : List WebhookEvent) (retrySeconds deferredGroups : ℕ)
  | terminal (values : RowValues) (events : List WebhookEvent) (finalStatus : EmailStatus)
      (finalState : DeliveryState)

def RowOutcome.values : RowOutcome → RowValues
  | .deferred values _ _ | .retry values _ _ _ | .terminal values _ _ _ => values

def RowOutcome.events : RowOutcome → List WebhookEvent
  | .deferred .. => []
  | .retry _ events _ _ | .terminal _ events _ _ => events

/-- Settings and draws the decision reads: the retry window, the deferral jitter and the clock. -/
structure DecisionEnv where
  retryMaxAgeMs : ℚ
  random : ℚ
  now : Time

def anyRetry (state : DeliveryState) : Bool := state.rows.any (·.2.status = .retry)

def anySent (state : DeliveryState) : Bool := state.rows.any (·.2.status = .sent)

/-- An entry failed for now, rather than being held back. -/
def realRetry (sent : SentAttempt) : Bool :=
  sent.deliveryState.rows.any fun (key, g) => g.status = .retry && key ∉ sent.deferredKeys

/-- The attempt did something: an entry was tried, or is newly settled. -/
def attempted (sent : SentAttempt) : Bool :=
  realRetry sent || sent.deliveryState.rows.any fun (key, g) =>
    (g.status = .sent || g.status = .failed) && sent.priorStatuses.get? key ≠ some g.status

/-- `delayMs`: the later of the backoff and the deferral; none without either, or when the backoff
leaves the retry window. -/
def outcomeDelayMs (env : DecisionEnv) (email : ClaimedEmail) (sent : SentAttempt) : Option ℕ :=
  let backoffMs := if realRetry sent then
    some (nextRetryDelayMs email.attempts email.ageMs env.retryMaxAgeMs) else none
  let deferMs := match sent.deferred with
    | some d => if d.keys ≠ [] then some (deferralDelayMs d.waitMs env.random) else none
    | none => none
  match backoffMs, deferMs with
  | some none, _ => none
  | none, none => none
  | backoff, defer => some (max (backoff.join.getD 0) (defer.getD 0))

/-- The delay of the next pass, when there is one. -/
def retryDelayMs (env : DecisionEnv) (email : ClaimedEmail) (sent : SentAttempt) : Option ℕ :=
  (outcomeDelayMs env email sent).filter fun delay =>
    anyRetry sent.deliveryState && email.ageMs + delay ≤ env.retryMaxAgeMs

/-- Some failed entry is a hard failure. -/
def anyHardBounce (state : DeliveryState) : Bool :=
  state.rows.any fun (_, g) => g.status = .failed && (failureOf g).any (·.kind = .hard)

/-- The status of a settled state. -/
def finalStatusOf (state : DeliveryState) : EmailStatus :=
  if anySent state then .sent else if anyHardBounce state then .bounced else .failed

def sentEvent (email : ClaimedEmail) (sent : SentAttempt) : WebhookEvent :=
  .emailSent email.id email.fromAddress email.toAddress email.subject sent.messageId email.tags

/-- The outcome of the end of the retry window, or of an attempt that left nothing pending. -/
def terminalOutcome (env : DecisionEnv) (email : ClaimedEmail) (sent : SentAttempt) : RowOutcome :=
  let finalState := finalStateOf sent.deliveryState sent.deferredKeys
  let finalStatus := finalStatusOf finalState
  let finalAnySent := anySent finalState
  .terminal
    { status := finalStatus
      messageId := some sent.messageId
      deliveryState := some finalState
      sentAt := some (if finalAnySent then some ((firstDeliveredAt finalState).getD env.now) else none)
      lastError := some
        (if finalStatus = .sent ∧ (groupsOf finalState).all (·.status = .sent) then none
          else some (summariseFailures finalState)) }
    ((if finalAnySent && !anySentBefore sent.priorStatuses then [sentEvent email sent] else []) ++
      if !finalAnySent && finalStatus = .failed then
        [.emailFailed email.id email.fromAddress email.toAddress email.subject
          (summariseFailures finalState)
          (some ((groupsOf finalState).any (·.blocked = some true))) email.tags]
      else [])
    finalStatus finalState

/-- A pure deferral: the claim's attempt is taken back, and the error is left as it was. -/
def deferredOutcome (email : ClaimedEmail) (sent : SentAttempt) (delay : ℕ) : RowOutcome :=
  .deferred
    { status := .queued
      nextAttemptInMs := some delay
      attempts := some (email.attempts - 1)
      messageId := some sent.messageId
      deliveryState := some sent.deliveryState }
    delay sent.deferredKeys.length

/-- The next pass, with `email.sent` if this attempt made the first delivery. -/
def retryOutcome (email : ClaimedEmail) (sent : SentAttempt) (delay : ℕ) : RowOutcome :=
  .retry
    { status := .queued
      nextAttemptInMs := some delay
      messageId := some sent.messageId
      deliveryState := some sent.deliveryState
      sentAt := some (firstDeliveredAt sent.deliveryState)
      lastError := some (some (summariseRetries sent.deliveryState sent.deferredKeys)) }
    (if anySent sent.deliveryState && !anySentBefore sent.priorStatuses then
      [sentEvent email sent] else [])
    ((delay + 500) / 1000) sent.deferredKeys.length

/-- The row update and the events an attempt leads to. -/
def decideRowOutcome (env : DecisionEnv) (email : ClaimedEmail) (sent : SentAttempt) : RowOutcome :=
  match retryDelayMs env email sent with
  | some delay =>
    if !attempted sent then deferredOutcome email sent delay else retryOutcome email sent delay
  | none => terminalOutcome env email sent

/-- **The decision** by cases. -/
theorem decideRowOutcome_cases (env : DecisionEnv) (email : ClaimedEmail) (sent : SentAttempt) :
    (∃ delay, retryDelayMs env email sent = some delay ∧ attempted sent = false ∧
        decideRowOutcome env email sent = deferredOutcome email sent delay) ∨
      (∃ delay, retryDelayMs env email sent = some delay ∧ attempted sent = true ∧
        decideRowOutcome env email sent = retryOutcome email sent delay) ∨
      retryDelayMs env email sent = none ∧
        decideRowOutcome env email sent = terminalOutcome env email sent := by
  unfold decideRowOutcome
  cases retryDelayMs env email sent with
  | none => exact .inr (.inr ⟨rfl, rfl⟩)
  | some delay =>
    cases attempted sent with
    | false => exact .inl ⟨delay, rfl, rfl, rfl⟩
    | true => exact .inr (.inl ⟨delay, rfl, rfl, rfl⟩)

end BunMail.Emails
