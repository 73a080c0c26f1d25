import BunMail.Emails.QueueDecision

/-!
# Sending a claimed email

What `sendClaimedEmail` writes for a claim: a release of the row in one transaction (the key was
revoked, the DKIM key cannot be used, or something was thrown), or the recording of an attempt
that reached the mailer.
-/

namespace BunMail.Emails

/-! ## Suppressed recipients -/

/-- `SUPPRESSED_BEFORE_RETRY`. -/
def SUPPRESSED_BEFORE_RETRY : Text := "All recipients were suppressed before this retry"

/-- A pending group without its suppressed recipients; one left with nobody fails and keeps its
recipients for the record. -/
def dropGroup (isSuppressed : Text → Bool) (now : Time) (group : DeliveryGroup) : DeliveryGroup :=
  if group.status ≠ .retry then group
  else
    let kept := group.recipients.filter fun r => !isSuppressed r
    if kept.length = group.recipients.length then group
    else if kept = [] then
      { group with
        status := .failed, lastError := some SUPPRESSED_BEFORE_RETRY, updatedAt := some now }
    else { group with recipients := kept }

/-- Removes recipients suppressed since the email was accepted from every pending group. -/
def dropSuppressedRecipients (isSuppressed : Text → Bool) (now : Time) (state : DeliveryState) :
    DeliveryState :=
  state.mapValues fun _ group => dropGroup isSuppressed now group

/-! ## One claim -/

/-- The sender's domain, as far as the queue reads it. -/
structure SenderDomain where
  name : Text
  dkimKeyUnreadable : Bool
  deriving DecidableEq

/-- What the world answers while a claim is sent.  A read that throws carries its message. -/
structure SendEnv where
  keyActive : Bool
  production : Bool
  domain : Except Text (Option SenderDomain)
  isSuppressed : Text → Bool
  droppedAt : Time
  /-- The other reads before the send: suppressions and attachments. -/
  reads : Except Text Unit
  /-- The Message-ID minted when the row has none. -/
  newMessageId : Text
  signedReturnPath : Bool
  mailer : MailerEnv
  decision : DecisionEnv

/-- What is written for a claim. -/
inductive Effect
  | release (values : RowValues) (events : List WebhookEvent)
  | record (sent : SentAttempt)

/-- Why a DKIM key cannot sign. -/
inductive DkimProblem
  | unreadable | unusable
  deriving DecidableEq, Repr

/-- `last_error` of a held email. -/
def dkimHoldError (domainName : Text) : DkimProblem → Text
  | .unreadable => "DKIM key for ".toList ++ domainName ++
      " cannot be decrypted with DKIM_ENCRYPTION_KEY: not sent unsigned".toList
  | .unusable => "DKIM key for ".toList ++ domainName ++
      " cannot be used to sign: not sent unsigned".toList

/-- Back to `queued` on the retry backoff, or `failed` once the email is too old. -/
def holdForDkimKey (env : DecisionEnv) (email : ClaimedEmail) (claim : Claim) (domainName : Text)
    (problem : DkimProblem) : Effect :=
  let lastError := dkimHoldError domainName problem
  match nextRetryDelayMs claim.attempt email.ageMs env.retryMaxAgeMs with
  | some delay =>
    .release
      { status := .queued
        nextAttemptInMs := some ((delay + 500) / 1000 * 1000)
        lastError := some (some lastError) } []
  | none =>
    .release { status := .failed, lastError := some (some lastError) }
      [.emailFailed email.id email.fromAddress email.toAddress email.subject lastError none email.tags]

/-- The `catch` of `sendClaimedEmail`, for anything but an unusable DKIM key. -/
def failOnError (email : ClaimedEmail) (errorMessage : Text) : Effect :=
  .release { status := .failed, lastError := some (some errorMessage) }
    [.emailFailed email.id email.fromAddress email.toAddress email.subject errorMessage none
      email.tags]

section Send

variable (toLowerCase : Text → Text)

/-- The prior state without the recipients suppressed since. -/
def existingStateOf (env : SendEnv) (email : ClaimedEmail) : Option DeliveryState :=
  email.deliveryState.map (dropSuppressedRecipients env.isSuppressed env.droppedAt)

/-- Each group's status before the attempt. -/
def priorStatusesOf (existingState : Option DeliveryState) : PriorStatuses :=
  Table.ofEntries ((existingState.map fun s => s.rows.map fun e => (e.1, e.2.status)).getD [])

/-- The call of the mailer. -/
def sendOptionsOf (env : SendEnv) (email : ClaimedEmail) : SendMailOptions where
  from_ := email.fromAddress
  to_ := email.toAddress
  cc := email.cc
  bcc := email.bcc
  messageId := email.messageId.getD env.newMessageId
  existingState := existingStateOf env email
  returnPath := if env.signedReturnPath then some email.id else none

/-- What is written for a claimed email. -/
def sendClaimedEmail (env : SendEnv) (email : ClaimedEmail) (claim : Claim) : Effect :=
  if !env.keyActive then
    .release { status := .failed, lastError := some (some "API key revoked before delivery") } []
  else
    match env.domain with
    | .error message => failOnError email message
    | .ok domain =>
      match domain.filter fun d => d.dkimKeyUnreadable && env.production with
      | some d => holdForDkimKey env.decision email claim d.name .unreadable
      | none =>
        match env.reads with
        | .error message => failOnError email message
        | .ok () =>
          match sendMail toLowerCase (sendOptionsOf env email) env.mailer with
          | .error (.dkimSigningFailed domainName) =>
            holdForDkimKey env.decision email claim domainName .unusable
          | .error .noRecipients => failOnError email SendMailError.noRecipients.message
          | .ok result =>
            .record
              { deliveryState := result.deliveryState
                messageId := (sendOptionsOf env email).messageId
                priorStatuses := priorStatusesOf (existingStateOf env email)
                deferred := result.deferred }

/-! ## What can be written -/

variable {toLowerCase} {env : SendEnv} {email : ClaimedEmail} {claim : Claim}

/-- A release that puts the row back: no event, nothing but the time of the next attempt and the
error. -/
def Effect.Requeues (effect : Effect) : Prop :=
  ∃ delay lastError, effect =
    .release { status := .queued, nextAttemptInMs := some delay, lastError := some (some lastError) } []

/-- A release that ends the row as `failed`, with `email.failed` or without an event. -/
def Effect.Fails (effect : Effect) : Prop :=
  ∃ lastError events,
    effect = .release { status := .failed, lastError := some (some lastError) } events ∧
      ∀ event ∈ events, event.isFailed = true

/-- What is recorded for a call of the mailer that returned. -/
def sentAttemptOf (env : SendEnv) (email : ClaimedEmail) (result : SendMailResult) : SentAttempt where
  deliveryState := result.deliveryState
  messageId := (sendOptionsOf env email).messageId
  priorStatuses := priorStatusesOf (existingStateOf env email)
  deferred := result.deferred

theorem failOnError_fails (message : Text) : (failOnError email message).Fails :=
  ⟨message, _, rfl, fun event h => by rw [List.mem_singleton.mp h]; rfl⟩

/-- The row is held back on the backoff, or fails once the backoff leaves the retry window. -/
theorem holdForDkimKey_cases (env : DecisionEnv) (email : ClaimedEmail) (claim : Claim)
    (domainName : Text) (problem : DkimProblem) :
    (nextRetryDelayMs claim.attempt email.ageMs env.retryMaxAgeMs).isNone = false ∧
        (holdForDkimKey env email claim domainName problem).Requeues ∨
      (nextRetryDelayMs claim.attempt email.ageMs env.retryMaxAgeMs).isNone = true ∧
        (holdForDkimKey env email claim domainName problem).Fails := by
  unfold holdForDkimKey
  cases nextRetryDelayMs claim.attempt email.ageMs env.retryMaxAgeMs with
  | some delay => exact .inl ⟨rfl, _, _, rfl⟩
  | none =>
    refine .inr ⟨rfl, _, _, rfl, fun event h => ?_⟩
    rw [List.mem_singleton.mp h]
    rfl

/-- The claim ends the row without sending: the API key is revoked, a read before the send throws,
no address of the row parses, or the DKIM key cannot be used and the backoff leaves the retry
window. -/
def aborts (toLowerCase : Text → Text) (env : SendEnv) (email : ClaimedEmail) (claim : Claim) :
    Bool :=
  let expired := (nextRetryDelayMs claim.attempt email.ageMs env.decision.retryMaxAgeMs).isNone
  !env.keyActive ||
    match env.domain with
    | .error _ => true
    | .ok domain =>
      match domain.filter fun d => d.dkimKeyUnreadable && env.production with
      | some _ => expired
      | none =>
        match env.reads with
        | .error _ => true
        | .ok () =>
          match sendMail toLowerCase (sendOptionsOf env email) env.mailer with
          | .error (.dkimSigningFailed _) => expired
          | .error .noRecipients => true
          | .ok _ => false

/-- **One claim.** The claim ends the row without sending, or the attempt is recorded, or the row is
put back. -/
theorem sendClaimedEmail_cases (toLowerCase : Text → Text) (env : SendEnv) (email : ClaimedEmail)
    (claim : Claim) :
    aborts toLowerCase env email claim = true ∧
        (sendClaimedEmail toLowerCase env email claim).Fails ∨
      aborts toLowerCase env email claim = false ∧
        ((∃ result, sendMail toLowerCase (sendOptionsOf env email) env.mailer = .ok result ∧
            sendClaimedEmail toLowerCase env email claim = .record (sentAttemptOf env email result)) ∨
          (sendClaimedEmail toLowerCase env email claim).Requeues) := by
  unfold sendClaimedEmail aborts
  cases env.keyActive with
  | false => exact .inl ⟨rfl, _, [], rfl, fun event h => (by cases h)⟩
  | true =>
    simp only [Bool.not_true, Bool.false_eq_true, if_false, Bool.false_or]
    cases env.domain with
    | error message => exact .inl ⟨rfl, failOnError_fails message⟩
    | ok domain =>
      dsimp only
      cases domain.filter fun d => d.dkimKeyUnreadable && env.production with
      | some d =>
        rcases holdForDkimKey_cases env.decision email claim d.name .unreadable with
          ⟨hn, h⟩ | ⟨hn, h⟩
        · exact .inr ⟨hn, .inr h⟩
        · exact .inl ⟨hn, h⟩
      | none =>
        cases env.reads with
        | error message => exact .inl ⟨rfl, failOnError_fails message⟩
        | ok _ =>
          dsimp only
          cases sendMail toLowerCase (sendOptionsOf env email) env.mailer with
          | ok result => exact .inr ⟨rfl, .inl ⟨result, rfl, rfl⟩⟩
          | error e =>
            cases e with
            | noRecipients => exact .inl ⟨rfl, failOnError_fails _⟩
            | dkimSigningFailed domainName =>
              rcases holdForDkimKey_cases env.decision email claim domainName .unusable with
                ⟨hn, h⟩ | ⟨hn, h⟩
              · exact .inr ⟨hn, .inr h⟩
              · exact .inl ⟨hn, h⟩

end Send

end BunMail.Emails
