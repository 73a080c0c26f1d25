import BunMail.Utils.EmailTokens
import BunMail.Utils.RecipientLists

/-!
# Unsubscribe tokens

`<email id hex>.<MAC>` names one sent email and its only recipient.  It is in the one-click link and in
the `unsub+` address of an email; whoever presents it is checked against the email's row, where the
only recipient is worked out again.
-/

namespace BunMail.Unsubscribe

open Recipients EmailTokens Text

/-- `MAC_BYTES`. -/
def MAC_BYTES : ℕ := 16

/-- `UNSUBSCRIBE_TOKEN_LENGTH`. -/
def UNSUBSCRIBE_TOKEN_LENGTH : ℕ := 57

/-- What a token names: one email and its one recipient. -/
structure UnsubscribeTokenSubject where
  emailId : Text
  recipient : Text
  deriving DecidableEq

/-- The columns of an email that are read. -/
structure EmailRow (τ : Type) where
  id : Text
  apiKeyId : Text
  fromAddress : Text
  toAddress : Text
  cc : Option Text
  bcc : Option Text
  tags : Option τ

/-- What a verified token resolves to. -/
structure UnsubscribeTarget (τ : Type) where
  emailId : Text
  apiKeyId : Text
  recipient : Text
  senderDomain : Text
  tags : Option τ
  deriving DecidableEq

/-- The email id a presented token names, and its MAC. -/
structure ParsedToken where
  emailId : Text
  mac : List UInt8
  deriving DecidableEq

section Token

variable {τ : Type} (toLowerCase : Text → Text) (hmac : Hmac)

/-- The text the MAC is computed over. -/
def macInput (subject : UnsubscribeTokenSubject) : Text :=
  join ":" ["unsubscribe:v1", subject.emailId, toLowerCase (trim subject.recipient)]

/-- The truncated MAC of a subject. -/
def computeMac (subject : UnsubscribeTokenSubject) : List UInt8 :=
  truncated hmac MAC_BYTES (macInput toLowerCase subject)

/-- The token for a subject. -/
def mintUnsubscribeToken (subject : UnsubscribeTokenSubject) : Option Text :=
  (EMAIL_ID_RE subject.emailId).map fun hex => hex ++ '.' :: toHex (computeMac toLowerCase hmac subject)

/-- Splits a presented token into the email id it names and its MAC. -/
def parseUnsubscribeToken (token : Text) : Option ParsedToken :=
  if utf16Length token ≠ UNSUBSCRIBE_TOKEN_LENGTH then none
  else
    match (toLowerCase token).splitOn '.' with
    | [hex, mac] => if isHex 24 hex && isHex 32 mac then some ⟨"msg_" ++ hex, fromHex mac⟩ else none
    | _ => none

/-- Whether a presented MAC is that of a subject. -/
def unsubscribeMacMatches (subject : UnsubscribeTokenSubject) (presented : List UInt8) : Bool :=
  let expected := computeMac toLowerCase hmac subject
  presented.length = expected.length && expected = presented

/-- The one address a token may name. -/
def soleRecipient (to_ : Text) (cc bcc : Option Text) : Option Text :=
  if trim (cc.getD []) ≠ [] ∨ trim (bcc.getD []) ≠ [] then none
  else
    match parseRecipients toLowerCase to_ none none with
    | [only] => some (toLowerCase only.address)
    | _ => none

/-- `UNSUBSCRIBE_LOCAL_PREFIX`. -/
def UNSUBSCRIBE_LOCAL_PREFIX : Text := "unsub+"

/-- The mailto local part that carries a token. -/
def unsubscribeLocalPart (token : Text) : Text := UNSUBSCRIBE_LOCAL_PREFIX ++ token

/-- The token in an `unsub+<token>@domain` address, in any case. -/
def tokenFromUnsubscribeAddress (address : Text) : Option Text :=
  match address.splitOn '@' with
  | localPart :: _ :: _ =>
    if asciiLower (localPart.take 6) = UNSUBSCRIBE_LOCAL_PREFIX ∧ localPart.drop 6 ≠ [] then
      some (localPart.drop 6)
    else none
  | _ => none

/-- `address.split("@")[1]?.trim().toLowerCase()`, when it is not empty. -/
def domainAfterAt (address : Text) : Option Text :=
  (((address.splitOn '@')[1]?).map fun domain => toLowerCase (trim domain)).filter (· ≠ [])

/-- Verifies a presented token against its email's row. -/
def resolveUnsubscribeToken (emails : Table (EmailRow.id (τ := τ))) (token : Text) :
    Option (UnsubscribeTarget τ) := do
  let parsed ← parseUnsubscribeToken toLowerCase token
  let row ← emails.find? parsed.emailId
  let recipient ← soleRecipient toLowerCase row.toAddress row.cc row.bcc
  if !unsubscribeMacMatches toLowerCase hmac ⟨parsed.emailId, recipient⟩ parsed.mac then none
  else
    let senderDomain ← domainAfterAt toLowerCase row.fromAddress
    some ⟨parsed.emailId, row.apiKeyId, recipient, senderDomain, row.tags⟩

/-- Verifies an `unsub+` recipient: the address must be at the sender domain of the email the token
names. -/
def resolveUnsubscribeRecipient (emails : Table (EmailRow.id (τ := τ))) (token address : Text) :
    Option (UnsubscribeTarget τ) :=
  (resolveUnsubscribeToken toLowerCase hmac emails token).filter fun target =>
    ((address.splitOn '@')[1]?).map (fun domain => toLowerCase (trim domain)) = some target.senderDomain

/-- A token of an email: made for its only recipient. -/
def TokenOf (row : EmailRow τ) (token : Text) : Prop :=
  ∃ recipient, soleRecipient toLowerCase row.toAddress row.cc row.bcc = some recipient ∧
    mintUnsubscribeToken toLowerCase hmac ⟨row.id, recipient⟩ = some token

end Token

end BunMail.Unsubscribe
