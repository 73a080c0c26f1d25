import BunMail.Emails.QueueOutcome
import BunMail.Lib.Faults

/-!
# The reads around a send

`sendClaimedEmail` call by call.  The API key is read before the `try`; the domain, the suppressions
of a retry and the attachments are read inside it, before the mailer runs.  Whatever is thrown inside
the `try` ends the row as `failed`, in a transaction of the `catch`, but for a DKIM key that cannot
sign.
-/

namespace BunMail.Emails.Reads

open Recipients Faults

/-! ## What is stored -/

/-- A row of `email_attachments`; `content` is null once the bytes are dropped. -/
structure Attachment where
  position : ℕ
  filename : Text
  contentType : Text
  contentId : Option Text
  content : Option (List UInt8)
  deriving DecidableEq

/-- What the mailer is given of it. -/
structure OutboundAttachment where
  filename : Text
  contentType : Text
  contentId : Option Text
  content : List UInt8
  deriving DecidableEq

/-- The row of the email with what an outcome writes to, and its attachments by position. -/
structure Store where
  queue : QueueDb
  attachments : List Attachment

/-- `dropAttachmentBytes`. -/
def dropAttachmentBytes (attachments : List Attachment) : List Attachment :=
  attachments.map fun a => { a with content := none }

/-- `releaseRowWithEvents`: a saved final status drops the bytes. -/
def Store.release (workerId : Text) (claim : Claim) (values : RowValues) (events : List WebhookEvent)
    (tx : TxEnv) (s : Store) : Store :=
  let released := releaseRowWithEvents workerId claim values events tx s.queue
  ⟨released.1, if released.2 && values.status.final then dropAttachmentBytes s.attachments
    else s.attachments⟩

/-! ## Calls and errors -/

/-- The database calls of one claim, up to the recording of its outcome. -/
inductive DbCall
  | findApiKeyById
  | resolveDomain
  | isSuppressed (recipient : Text)
  | loadAttachments
  /-- The release of a row whose API key is revoked. -/
  | releaseRevoked
  /-- The release of `holdForDkimKey`. -/
  | holdForDkimKey
  /-- The transaction of the `catch`. -/
  | failOnError
  deriving DecidableEq

/-- The reads. -/
def DbCall.isRead : DbCall → Bool
  | .findApiKeyById | .resolveDomain | .isSuppressed _ | .loadAttachments => true
  | .releaseRevoked | .holdForDkimKey | .failOnError => false

/-- What a call finds: the key, the domain and the suppression of that moment, and the clocks of a
transaction. -/
structure Found where
  keyActive : Bool
  domain : Option SenderDomain
  suppressed : Bool
  tx : TxEnv

/-- What is thrown. -/
inductive Thrown
  /-- A database error. -/
  | database (call : DbCall)
  | attachmentMissing (position : ℕ)
  | noRecipients
  | dkimSigningFailed (domain : Text)
  deriving DecidableEq

/-- What the claim is sent with; `dbError` is the text of a database error. -/
structure Setting where
  toLowerCase : Text → Text
  workerId : Text
  /-- `domain_id` of the row. -/
  domainId : Option Text
  production : Bool
  newMessageId : Text
  droppedAt : Time
  signedReturnPath : Bool
  mailer : MailerEnv
  decision : DecisionEnv
  dbError : DbCall → Text
  /-- How the writes of the outcome end. -/
  fate : ℕ → Fate
  tx : ℕ → TxEnv

/-- `error.message`. -/
def Thrown.message (env : Setting) : Thrown → Text
  | .database call => env.dbError call
  | .attachmentMissing position =>
    "Attachment ".toList ++ Text.decimal position ++ " is no longer stored".toList
  | .noRecipients => SendMailError.noRecipients.message
  | .dkimSigningFailed domain => (SendMailError.dkimSigningFailed domain).message

/-- A part of the claim. -/
abbrev Action (α : Type) := Prog DbCall Found Store Thrown α

section Send

variable (env : Setting) (email : ClaimedEmail) (claim : Claim)

/-! ## The reads -/

/-- A read that `answer` gives from what it finds. -/
def read {α : Type} (k : DbCall) (answer : Found → Store → α) : Action α :=
  call k (.database k) fun found s => (answer found s, s)

/-- `resolveDomainForEmail`; without an id the domain is looked up by the sender's name, if there is
one. -/
def resolveDomainForEmail : Action (Option SenderDomain) :=
  if env.domainId = none ∧ ((email.fromAddress.splitOn '@')[1]?).filter (· ≠ []) = none then pure none
  else read .resolveDomain fun found _ => found.domain

/-- The recipients that are not suppressed now. -/
def keptOf : List Text → Action (List Text)
  | [] => pure []
  | recipient :: rest => do
    let suppressed ← read (.isSuppressed recipient) fun found _ => found.suppressed
    let kept ← keptOf rest
    pure (if suppressed then kept else recipient :: kept)

/-- A pending group without its suppressed recipients; one left with nobody fails. -/
def dropFromGroup (group : DeliveryGroup) : Action DeliveryGroup :=
  if group.status ≠ .retry then pure group
  else do
    let kept ← keptOf group.recipients
    pure (if kept.length = group.recipients.length then group
      else if kept = [] then
        { group with
          status := .failed, lastError := some SUPPRESSED_BEFORE_RETRY
          updatedAt := some env.droppedAt }
      else { group with recipients := kept })

/-- Every group in turn. -/
def dropFromGroups : List (Text × DeliveryGroup) → Action (List (Text × DeliveryGroup))
  | [] => pure []
  | entry :: rest => do
    let group ← dropFromGroup env entry.2
    let groups ← dropFromGroups rest
    pure ((entry.1, group) :: groups)

/-- The prior state of a retry, by `dropSuppressedRecipients`. -/
def existingState : Action (Option DeliveryState) :=
  match email.deliveryState with
  | none => pure none
  | some state => do
    let entries ← dropFromGroups env state.rows
    pure (some (Table.ofEntries entries))

/-- The first attachment without its bytes. -/
def missingBytes (attachments : List Attachment) : Option Attachment :=
  attachments.find? fun a => a.content.isNone

/-- `loadOutboundAttachments`. -/
def loadOutboundAttachments : Action (List OutboundAttachment) := do
  let loaded ← read .loadAttachments fun _ s => s.attachments
  check ((missingBytes loaded).map fun a => .attachmentMissing a.position)
  pure (loaded.map fun a => ⟨a.filename, a.contentType, a.contentId, a.content.getD []⟩)

/-! ## The send -/

/-- The call of the mailer. -/
def sendOptions (state : Option DeliveryState) : SendMailOptions where
  from_ := email.fromAddress
  to_ := email.toAddress
  cc := email.cc
  bcc := email.bcc
  messageId := email.messageId.getD env.newMessageId
  existingState := state
  returnPath := if env.signedReturnPath then some email.id else none

/-- The release that an effect writes, in one call. -/
def write (k : DbCall) (effect : Effect) : Action Unit :=
  match effect with
  | .record _ => pure ()
  | .release values events =>
    call k (.database k) fun found s => ((), s.release env.workerId claim values events found.tx)

/-- The mailer, with what it throws. -/
def deliverEmail (state : Option DeliveryState) : Action SentAttempt := fun _ w =>
  (match sendMail env.toLowerCase (sendOptions env email state) env.mailer with
    | .error .noRecipients => .error .noRecipients
    | .error (.dkimSigningFailed domain) => .error (.dkimSigningFailed domain)
    | .ok result => .ok
      { deliveryState := result.deliveryState
        messageId := (sendOptions env email state).messageId
        priorStatuses := priorStatusesOf state
        deferred := result.deferred }, w)

/-- Reads and send, once the domain is known to be usable. -/
def attempt : Action (Option SentAttempt) := do
  let state ← existingState env email
  let _ ← loadOutboundAttachments
  let sent ← deliverEmail env email state
  pure (some sent)

/-- The email is held, and nothing is left to record. -/
def hold (domainName : Text) (problem : DkimProblem) : Action (Option SentAttempt) := do
  write env claim .holdForDkimKey (holdForDkimKey env.decision email claim domainName problem)
  pure none

/-- With the domain of the sender. -/
def sendFrom (domain : Option SenderDomain) : Action (Option SentAttempt) :=
  match domain.filter fun d => d.dkimKeyUnreadable && env.production with
  | some d => hold env email claim d.name .unreadable
  | none => attempt env email

/-- The body of the `try`: the attempt to record, unless the email is held. -/
def tryBody : Action (Option SentAttempt) := do
  let domain ← resolveDomainForEmail env email
  sendFrom env email claim domain

/-- The body of the `catch`. -/
def catchBody : Thrown → Action (Option SentAttempt)
  | .dkimSigningFailed domain => hold env email claim domain .unusable
  | e => do
    write env claim .failOnError (Emails.failOnError email (e.message env))
    pure none

/-- `recordSendOutcome`; the outcome that ends the row drops the bytes. -/
def recordOutcome (sent : SentAttempt) (s : Store) : Store :=
  let queue := recordSendOutcome env.toLowerCase env.workerId env.decision email claim sent env.fate
    env.tx s.queue
  ⟨queue, if queue.row.status.final then dropAttachmentBytes s.attachments else s.attachments⟩

/-- What is recorded of an attempt. -/
def finish : Option SentAttempt → Action Unit
  | none => pure ()
  | some sent => modify (recordOutcome env email claim sent)

/-- With an active key. -/
def sendActive : Action Unit := do
  let sent ← recover (tryBody env email claim) (catchBody env email claim)
  finish env email claim sent

/-- The revoked key's release. -/
def revoke : Action Unit :=
  write env claim .releaseRevoked
    (.release { status := .failed, lastError := some (some "API key revoked before delivery") } [])

/-- `sendClaimedEmail`. -/
def sendClaimedEmail : Action Unit := do
  let keyActive ← read .findApiKeyById fun found _ => found.keyActive
  if keyActive then sendActive env email claim else revoke env claim

end Send

end BunMail.Emails.Reads
