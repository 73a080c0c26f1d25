import BunMail.Lib.Calendar
import BunMail.Lib.Faults
import BunMail.SmtpSubmission.MessageMapper
import BunMail.Suppressions.Suppression

/-!
# `DATA` of the submission server

A submitted message takes a slot of the key's daily quota, when there is one, is checked, is queued,
and is counted.  These are separate statements around one `catch`, and any of them may fail.  What a
call finds is the clock, a fresh id, and what the DNS check made within it finds.
-/

namespace BunMail.SmtpSubmission.Data

open Recipients SuppressionList Faults

/-! ## The tables -/

/-- A row of `smtp_submission_usage`. -/
structure UsageRow where
  apiKeyId : Text
  day : Text
  accepted : ℕ
  rejected : ℕ
  deriving DecidableEq

/-- The columns of `smtp_submission_usage_key_day_unique`. -/
def UsageRow.key (r : UsageRow) : Text × Text := (r.apiKeyId, r.day)

/-- What the checks read of an API key. -/
structure SenderKey where
  id : Text
  isActive : Bool
  allowedSenders : List Text
  deriving DecidableEq

/-- What they read of a domain. -/
structure SenderDomain where
  id : Text
  name : Text
  dkimVerified : Bool
  deriving DecidableEq

/-- A row of `emails` as `insertPreparedEmail` stores it; `source` is `smtp`. -/
structure QueuedEmail (κ : Type) where
  id : Text
  apiKeyId : Text
  domainId : Option Text
  fromAddress : Text
  addresses : PreparedAddresses
  replyTo : Option Text
  subject : Text
  content : κ

/-- The tables; `queued` are the `email.queued` events, by the id of their email. -/
structure Db (κ : Type) where
  usage : Table UsageRow.key := Table.empty
  suppressions : Suppressions := Table.empty
  apiKeys : Table SenderKey.id := Table.empty
  domains : Table SenderDomain.id := Table.empty
  emails : List (QueuedEmail κ) := []
  queued : List Text := []

/-! ## Calls, errors and replies -/

/-- `SubmissionOutcome`. -/
inductive SubmissionOutcome
  | accepted | rejected
  deriving DecidableEq

/-- The database calls of one message. -/
inductive DbCall
  | reserveAccepted
  | recordOutcome (outcome : SubmissionOutcome)
  | releaseReservation
  | isSuppressed
  | findApiKeyById
  | checkSenderDomain
  | insertPreparedEmail
  deriving DecidableEq

/-- What a call finds; `recheck` is whether the inline check of the domain finds its DKIM record. -/
structure Found where
  now : Time
  id : Text
  recheck : Bool

/-- What is thrown. -/
inductive SendError
  | suppressedRecipient
  /-- `EmailSendRejectedError`; whether it is `AttachmentsTooLargeError`. -/
  | emailSendRejected (message : Text) (attachmentsTooLarge : Bool)
  | unauthorizedSender (sender : Text)
  | inactiveApiKey
  | submissionRejected (message : Text)
  /-- A database error. -/
  | unexpected
  deriving DecidableEq

/-- What the client is answered: that the message is queued, or the code and text of a refusal. -/
inductive Reply
  | ok
  | error (responseCode : ℕ) (message : Text)
  deriving DecidableEq

/-- The reply of the `catch`. -/
def SendError.reply : SendError → Reply
  | .suppressedRecipient => .error 550
      ("Recipient is on the suppression list. ".toList ++
        "Remove the suppression first if this is intentional.".toList)
  | .emailSendRejected message attachmentsTooLarge =>
    .error (if attachmentsTooLarge then 552 else 550) message
  | .unauthorizedSender sender => .error 550
      ("Sender address \"".toList ++ sender ++
        "\" is not in this API key's allowed-senders list.".toList)
  | .inactiveApiKey => .error 550 "This API key has been revoked.".toList
  | .submissionRejected message => .error 550 message
  | .unexpected => .error 451 "Local error in processing, try again later".toList

/-- `SenderDomainNotRegisteredError`. -/
def senderDomainNotRegistered (domain : Text) : SendError :=
  .emailSendRejected ("Sender domain \"".toList ++ domain ++
    "\" is not registered. Add it via the API or dashboard before sending.".toList) false

/-- `SenderDomainUnverifiedError`. -/
def senderDomainUnverified (domain : Text) : SendError :=
  .emailSendRejected ("Sender domain \"".toList ++ domain ++
    "\" has no verified DKIM record. Publish the DKIM TXT record shown for the domain in the ".toList ++
    "dashboard or GET /api/v1/domains/:id, then send again.".toList) false

/-- `TooManyRecipientsError`. -/
def tooManyRecipients : RecipientCapProblem → SendError
  | .to_ => .emailSendRejected
      ("At most ".toList ++ Text.decimal MAX_TO_RECIPIENTS ++ " addresses in to.".toList) false
  | .total => .emailSendRejected
      ("At most ".toList ++ Text.decimal MAX_TOTAL_RECIPIENTS ++
        " unique recipients across to, cc and bcc.".toList) false

/-- `SubjectRequiredError`. -/
def subjectRequired : SendError :=
  .emailSendRejected
    "Subject is required: provide it inline or via a template.".toList false

/-- `BodyRequiredError`. -/
def bodyRequired : SendError :=
  .emailSendRejected
    "A body is required: provide html or text, inline or via a template.".toList false

/-! ## What the handler is given -/

/-- The settings it reads. -/
structure Config where
  maxMessageBytes : ℕ
  /-- 0 is no quota. -/
  dailyQuota : ℕ
  sharedHard : Bool := false
  production : Bool := true
  requireVerifiedDomain : Bool := false

/-- What the mail parser gives of a message. -/
structure ParsedMail (κ : Type) where
  from_ : Option Text
  to_ : List (Option Text)
  cc : List (Option Text)
  replyTo : List (Option Text)
  subject : Option Text
  content : κ

/-- The parts of the handler that read no table: the mail parser, which may throw; the refusals of
`submissionCategory` and `submissionTags`; those of `prepareEmail` on headers, display name, tags,
category and attachments, with whether they are over their size; whether there is a body; and
`domainNameIs`. -/
structure Rules (κ : Type) where
  toLowerCase : Text → Text
  simpleParser : List UInt8 → Option (ParsedMail κ)
  contentProblem : κ → Option Text
  inputProblem : SendEmailInput κ → Option (Text × Bool)
  hasBody : κ → Bool
  domainNameIs : Text → Text → Bool

/-- What the handler reads of the session. -/
structure Session where
  user : Option Text
  mailFrom : Option Text
  rcptTo : List Text

/-- What the handler works on: the tables, the slot it holds, and the replies it has given. -/
structure Handler (κ : Type) where
  db : Db κ
  reservedDay : Option Text := none
  replies : List Reply := []

/-- A part of the handler that throws `ε`. -/
abbrev Action (κ ε α : Type) := Prog DbCall Found (Handler κ) ε α

section Service

variable {κ : Type} {ε : Type}

/-! ## The usage counters -/

/-- The upsert of one more outcome on the current day. -/
def countOutcome (apiKeyId day : Text) (outcome : SubmissionOutcome) (db : Db κ) : Db κ :=
  let acceptedInc := if outcome = .accepted then 1 else 0
  let rejectedInc := if outcome = .rejected then 1 else 0
  { db with
    usage := db.usage.upsert ⟨apiKeyId, day, acceptedInc, rejectedInc⟩
      (fun r => { r with accepted := r.accepted + acceptedInc, rejected := r.rejected + rejectedInc })
      fun _ _ => rfl }

/-- `recordOutcome`. -/
def recordOutcome (apiKeyId : Text) (outcome : SubmissionOutcome) : Action κ SendError Unit :=
  call (.recordOutcome outcome) .unexpected fun found h =>
    ((), { h with db := countOutcome apiKeyId (Calendar.isoDate found.now) outcome h.db })

/-- The statement of `reserveAccepted`, with the row it wrote. -/
def takeSlot (apiKeyId day : Text) (dailyQuota : ℕ) (usage : Table UsageRow.key) :
    Table UsageRow.key × Option UsageRow :=
  usage.upsertWhere ⟨apiKeyId, day, 1, 0⟩ (fun r => { r with accepted := r.accepted + 1 })
    (fun r => r.accepted < dailyQuota) fun _ _ => rfl

/-- `reserveAccepted`: the day the slot is on, unless the quota is used up. -/
def reserveAccepted (apiKeyId : Text) (dailyQuota : ℕ) : Action κ SendError (Option Text) :=
  call .reserveAccepted .unexpected fun found h =>
    let day := Calendar.isoDate found.now
    let reserved := takeSlot apiKeyId day dailyQuota h.db.usage
    (reserved.2.map fun _ => day, { h with db := { h.db with usage := reserved.1 } })

/-- The statement of `releaseReservation`. -/
def giveBack (apiKeyId day : Text) (usage : Table UsageRow.key) : Table UsageRow.key :=
  usage.updateAll
    (fun r => if r.key = (apiKeyId, day) then
      { r with accepted := r.accepted - 1, rejected := r.rejected + 1 } else r)
    fun r => by split_ifs <;> rfl

/-- `releaseReservation`. -/
def releaseReservation (apiKeyId day : Text) : Action κ SendError Unit :=
  call .releaseReservation .unexpected fun _ h =>
    ((), { h with db := { h.db with usage := giveBack apiKeyId day h.db.usage } })

/-! ## `createEmail` -/

variable (config : Config) (rules : Rules κ)

/-- `isSuppressed`, of each recipient in turn. -/
def suppressionGate (apiKeyId : Text) : List Recipient → Action κ SendError Unit
  | [] => pure ()
  | rcpt :: rest => do
    let match_ ← call .isSuppressed .unexpected fun found h =>
      (isSuppressed rules.toLowerCase h.db.suppressions found.now config.sharedHard apiKeyId
        rcpt.address, h)
    check (match_.map fun _ => .suppressedRecipient)
    suppressionGate apiKeyId rest

/-- What is wrong with the key of a send. -/
def keyProblem (key : Option SenderKey) (from_ : Text) : Option SendError :=
  match key.filter SenderKey.isActive with
  | none => some .inactiveApiKey
  | some key =>
    if key.allowedSenders ≠ [] ∧ rules.toLowerCase (Text.trim from_) ∉ key.allowedSenders then
      some (.unauthorizedSender from_)
    else none

/-- `input.from.split("@")[1]`, unless it is empty. -/
def senderDomainOf (from_ : Text) : Option Text := ((from_.splitOn '@')[1]?).filter (· ≠ [])

/-- What `checkSenderDomain` finds: the domain's row, and whether its DKIM record is verified, by the
stored flag or the inline check. -/
def domainProblem (name : Text) (domain : Option (SenderDomain × Bool)) : Option SendError :=
  match domain with
  | none =>
    if config.production || config.requireVerifiedDomain then some (senderDomainNotRegistered name)
    else none
  | some (_, verified) =>
    if config.requireVerifiedDomain && !verified then some (senderDomainUnverified name) else none

/-- `checkSenderDomain`: the id of the registered domain. -/
def checkSenderDomain (name : Text) : Action κ SendError (Option Text) := do
  let domain ← call .checkSenderDomain .unexpected fun found h =>
    ((h.db.domains.rows.find? fun d => rules.domainNameIs name d.name).map fun d =>
      (d, d.dkimVerified || found.recheck), h)
  check (domainProblem config name domain)
  pure (domain.map fun d => d.1.id)

/-- The id of the sender's domain, when the address names one. -/
def senderDomainId (from_ : Text) : Action κ SendError (Option Text) :=
  match senderDomainOf from_ with
  | none => pure none
  | some name => checkSenderDomain config rules name

/-- `prepareEmail`: every check, and the row to insert but for its id. -/
def prepareEmail (input : SendEmailInput κ) (apiKeyId : Text) :
    Action κ SendError (Text → QueuedEmail κ) := do
  let toList := normalizeToList rules.toLowerCase input.to_
  check ((recipientCapProblem rules.toLowerCase toList input.cc input.bcc).map tooManyRecipients)
  check ((rules.inputProblem input).map fun p => .emailSendRejected p.1 p.2)
  suppressionGate config rules apiKeyId
    (parseRecipients rules.toLowerCase (joinToList toList) input.cc input.bcc)
  let key ← call .findApiKeyById .unexpected fun _ h => (h.db.apiKeys.find? apiKeyId, h)
  check (keyProblem rules key input.from_)
  check (if input.subject = [] then some subjectRequired else none)
  check (if rules.hasBody input.content then none else some bodyRequired)
  let domainId ← senderDomainId config rules input.from_
  pure fun id =>
    { id, apiKeyId, domainId, fromAddress := input.from_
      addresses := ⟨joinToList toList, input.cc, input.bcc⟩
      replyTo := input.replyTo, subject := input.subject, content := input.content }

/-- The transaction of `createEmail`: the row and its event. -/
def Db.queue (email : QueuedEmail κ) (db : Db κ) : Db κ :=
  { db with emails := db.emails ++ [email], queued := db.queued ++ [email.id] }

def createEmail (input : SendEmailInput κ) (apiKeyId : Text) : Action κ SendError Unit := do
  let prepared ← prepareEmail config rules input apiKeyId
  call .insertPreparedEmail .unexpected fun found h =>
    ((), { h with db := h.db.queue (prepared found.id) })

/-! ## The handler -/

/-- The message of a session, from what the parser gives. -/
def submitted (session : Session) (parsed : ParsedMail κ) : SubmittedMessage κ where
  fromHeader := parsed.from_
  envelopeFrom := session.mailFrom
  to_ := parsed.to_
  cc := parsed.cc
  replyTo := parsed.replyTo
  rcptTo := session.rcptTo
  subject := parsed.subject
  content := parsed.content

/-- From the bytes of a message to the queue. -/
def queueMessage (session : Session) (apiKeyId : Text) (bytes : List UInt8) :
    Action κ SendError Unit :=
  match rules.simpleParser bytes with
  | none => throw (.submissionRejected "Message could not be parsed".toList)
  | some parsed => do
    check ((rules.contentProblem parsed.content).map .submissionRejected)
    match buildSubmissionInput rules.toLowerCase (submitted session parsed).parts with
    | .error message => throw (.submissionRejected message)
    | .ok input => createEmail config rules input apiKeyId

/-- `callback`. -/
def answer (reply : Reply) : Action κ ε Unit := modify fun h => { h with replies := h.replies ++ [reply] }

/-- The message is counted, unless a slot already counts it. -/
def countAccepted (apiKeyId : Text) : Action κ SendError Unit := do
  let h ← get
  if h.reservedDay = none then recordOutcome apiKeyId .accepted else pure ()

/-- The message is queued, counted and answered. -/
def acceptMessage (session : Session) (apiKeyId : Text) (bytes : List UInt8) :
    Action κ SendError Unit := do
  queueMessage config rules session apiKeyId bytes
  countAccepted apiKeyId
  modify fun h => { h with reservedDay := none }
  answer .ok

/-- The body of the `try`. -/
def submitMessage (session : Session) (apiKeyId : Text) (bytes : List UInt8) :
    Action κ SendError Unit :=
  if 0 < config.dailyQuota then do
    let reservedDay ← reserveAccepted apiKeyId config.dailyQuota
    modify fun h => { h with reservedDay }
    if reservedDay = none then do
      recordOutcome apiKeyId .rejected
      answer (.error 452 ("Daily send quota of ".toList ++ Text.decimal config.dailyQuota ++
        " reached for this API key; resets at 00:00 UTC".toList))
    else acceptMessage config rules session apiKeyId bytes
  else acceptMessage config rules session apiKeyId bytes

/-- The body of the `catch`. -/
def refuseMessage (apiKeyId : Text) (error : SendError) : Action κ ε Unit := do
  let h ← get
  recover
    (match h.reservedDay with
      | none => recordOutcome apiKeyId .rejected
      | some day => releaseReservation apiKeyId day)
    fun _ => pure ()
  answer error.reply

/-- The listener of `end`, unless the stream was aborted. -/
def onEnd (session : Session) (bytes : List UInt8) : Action κ ε Unit :=
  match session.user.filter (· ≠ []) with
  | none => answer (.error 530 "Authentication required".toList)
  | some apiKeyId =>
    recover (submitMessage config rules session apiKeyId bytes) (refuseMessage apiKeyId)

/-- What the listener of `data` keeps. -/
structure Stream where
  chunks : List UInt8 := []
  totalBytes : ℕ := 0
  aborted : Bool := false
  replies : List Reply := []

/-- The listener of `data`. -/
def onChunk (s : Stream) (chunk : List UInt8) : Stream :=
  if s.aborted then s
  else if config.maxMessageBytes < s.totalBytes + chunk.length then
    { s with chunks := [], totalBytes := s.totalBytes + chunk.length, aborted := true
             replies := s.replies ++ [.error 552 "Message size exceeds limit".toList] }
  else { s with chunks := s.chunks ++ chunk, totalBytes := s.totalBytes + chunk.length }

/-- What the chunks leave. -/
def received (chunks : List (List UInt8)) : Stream := chunks.foldl (onChunk config) {}

/-- `onData`: every chunk, then the end. -/
def onData (session : Session) (chunks : List (List UInt8)) : Action κ ε Unit := do
  let stream := received config chunks
  modify fun h => { h with replies := h.replies ++ stream.replies }
  if stream.aborted then pure () else onEnd config rules session stream.chunks

end Service

end BunMail.SmtpSubmission.Data
