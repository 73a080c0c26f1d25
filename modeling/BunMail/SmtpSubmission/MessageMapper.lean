import BunMail.Utils.RecipientLists

/-!
# A submitted message as a send

`buildSubmissionInput` turns the addresses of a submitted message and its envelope into the `to`, `cc`
and `bcc` of a send: what the headers show is limited to the envelope, and who is in the envelope only
is a blind recipient.  The lists are stored as text, which is split again when the email is prepared
and when its recipients are parsed.  The other rules a send is checked by are a parameter.
-/

namespace BunMail.SmtpSubmission

open Recipients Text

/-- The address material of a message; `content` is what is passed on unread: bodies, headers, display
name, category, tags and attachments. -/
structure SubmissionMessageParts (κ : Type) where
  fromHeader : Option Text
  envelopeFrom : Option Text
  toHeader : List Text
  ccHeader : List Text
  envelopeRecipients : List Text
  replyToHeader : List Text
  subject : Option Text
  content : κ

/-- `SendEmailInput`. -/
structure SendEmailInput (κ : Type) where
  from_ : Text
  to_ : Text
  cc : Option Text
  bcc : Option Text
  replyTo : Option Text
  subject : Text
  content : κ

/-- `text || undefined`. -/
def nonEmpty? (text : Text) : Option Text := if text = [] then none else some text

/-- The addresses of a parsed header field: trimmed, without empty and over-long ones. -/
def extractAddresses (field : List (Option Text)) : List Text :=
  field.filterMap fun address =>
    let addr := trim (address.getD [])
    if addr = [] ∨ MAX_ADDRESS_LENGTH < utf16Length addr then none else some addr

section Mapper

variable {κ : Type} (toLowerCase : Text → Text)

/-- `dedupeJoin`. -/
def dedupeJoin (addresses : List Text) : Text := join ", " (dedupe toLowerCase addresses)

/-- The envelope, as lowercased addresses. -/
def envelopeOf (parts : SubmissionMessageParts κ) : List Text :=
  (parts.envelopeRecipients.map fun a => toLowerCase (trim a)).filter (· ≠ [])

/-- `inEnvelope`. -/
def inEnvelope (parts : SubmissionMessageParts κ) (address : Text) : Bool :=
  toLowerCase (trim address) ∈ envelopeOf toLowerCase parts

/-- Every address rendered in `To` and `Cc`, lowercased. -/
def visibleIn (to_ cc : Text) : List Text :=
  (((join ", " ([to_, cc].filter (· ≠ []))).splitOn ',').map fun a =>
    toLowerCase (trim a)).filter (· ≠ [])

/-- The texts of `SubmissionRejectedError`. -/
def missingSender : Text := "Missing sender address (no From header or MAIL FROM)"

def noneInEnvelope : Text :=
  "None of the To/Cc addresses was sent in RCPT TO: BunMail delivers only to envelope ".toList ++
    "recipients".toList

def noRecipients : Text := "No recipients"

/-- The `to` and `bcc` fields, from the visible `To` and `Cc`. -/
def toAndBcc (parts : SubmissionMessageParts κ) (to_ cc : Text) : Text × Text :=
  if to_ ≠ [] ∨ cc ≠ [] then
    let bccAddrs := parts.envelopeRecipients.filter fun addr =>
      addr ≠ [] ∧ toLowerCase (trim addr) ∉ visibleIn toLowerCase to_ cc
    let nonBcc := parts.envelopeRecipients.filter (· ∉ bccAddrs)
    (if to_ ≠ [] then to_ else dedupeJoin toLowerCase nonBcc, dedupeJoin toLowerCase bccAddrs)
  else
    -- To cannot be told from Bcc: every envelope recipient is a visible one
    (dedupeJoin toLowerCase parts.envelopeRecipients, [])

/-- The send of a submitted message, or why it is refused. -/
def buildSubmissionInput (parts : SubmissionMessageParts κ) : Except Text (SendEmailInput κ) :=
  let trimmed (text : Option Text) := (text.map trim).filter (· ≠ [])
  match trimmed parts.fromHeader <|> trimmed parts.envelopeFrom with
  | none => .error missingSender
  | some from_ =>
    let to_ := dedupeJoin toLowerCase (parts.toHeader.filter (inEnvelope toLowerCase parts))
    let cc := dedupeJoin toLowerCase (parts.ccHeader.filter (inEnvelope toLowerCase parts))
    if (parts.toHeader ++ parts.ccHeader).any (fun a => trim a ≠ []) ∧ to_ = [] ∧ cc = [] then
      .error noneInEnvelope
    else
      let fields := toAndBcc toLowerCase parts to_ cc
      if fields.1 = [] then .error noRecipients
      else .ok
        { from_
          to_ := fields.1
          cc := nonEmpty? cc
          bcc := nonEmpty? fields.2
          replyTo := nonEmpty? (dedupeJoin toLowerCase parts.replyToHeader)
          subject := parts.subject.getD []
          content := parts.content }

/-- The address columns of a prepared email. -/
structure PreparedAddresses where
  toAddress : Text
  cc : Option Text
  bcc : Option Text
  deriving DecidableEq

/-- What `prepareEmail` does with the recipients: the caps are checked on the normalized `to` list, and
`refuses` stands for every other rule. -/
def prepareEmail (refuses : SendEmailInput κ → Bool) (input : SendEmailInput κ) :
    Option PreparedAddresses :=
  let toList := normalizeToList toLowerCase input.to_
  if (recipientCapProblem toLowerCase toList input.cc input.bcc).isSome ∨ refuses input = true then
    none
  else some ⟨joinToList toList, input.cc, input.bcc⟩

/-- What the data handler reads of a message: the addresses of its header fields as the mail parser
gives them, and the recipients of the session's envelope. -/
structure SubmittedMessage (κ : Type) where
  fromHeader : Option Text
  envelopeFrom : Option Text
  to_ : List (Option Text)
  cc : List (Option Text)
  replyTo : List (Option Text)
  rcptTo : List Text
  subject : Option Text
  content : κ

/-- The parts of a message. -/
def SubmittedMessage.parts (m : SubmittedMessage κ) : SubmissionMessageParts κ where
  fromHeader := m.fromHeader
  envelopeFrom := m.envelopeFrom
  toHeader := extractAddresses m.to_
  ccHeader := extractAddresses m.cc
  envelopeRecipients := m.rcptTo
  replyToHeader := extractAddresses m.replyTo
  subject := m.subject
  content := m.content

/-- The columns stored for a message, unless it is refused. -/
def submit (refuses : SendEmailInput κ → Bool) (m : SubmittedMessage κ) : Option PreparedAddresses :=
  (buildSubmissionInput toLowerCase m.parts).toOption.bind (prepareEmail toLowerCase refuses)

end Mapper

theorem mem_extractAddresses {field : List (Option Text)} {a : Text} (h : a ∈ extractAddresses field) :
    a ≠ [] ∧ utf16Length a ≤ MAX_ADDRESS_LENGTH := by
  obtain ⟨address, _, ha⟩ := List.mem_filterMap.mp h
  dsimp only at ha
  split_ifs at ha with hc
  obtain ⟨hne, hlen⟩ := not_or.mp hc
  rw [← Option.some.inj ha]
  exact ⟨hne, not_lt.mp hlen⟩

end BunMail.SmtpSubmission
