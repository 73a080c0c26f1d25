import BunMail.Utils.EmailTokens
import BunMail.Utils.RecipientLists
import BunMail.Emails.MailerState

/-!
# Signed return paths

With inbound mail on, every recipient is sent to under an envelope sender of its own,
`b+<email id hex>.<recipient index>.<MAC>@<sender domain>`, and a delivery status notification comes
back to it.  Minting reads the email's fields when it is sent; resolving reads them again when the
notification arrives, and must come to the same email and the same recipient.
-/

namespace BunMail.Bounces

open Recipients EmailTokens Text

/-- `MAC_BYTES`. -/
def MAC_BYTES : ℕ := 12

/-- `MAX_RECIPIENT_INDEX`. -/
def MAX_RECIPIENT_INDEX : ℕ := 999999

/-- `MAX_LOCAL_PART_LENGTH`. -/
def MAX_LOCAL_PART_LENGTH : ℕ := 64

/-- What a return path names: one email, one of its recipients, and where it sits. -/
structure ReturnPathSubject where
  emailId : Text
  index : ℕ
  recipient : Text
  deriving DecidableEq

/-- A presented return path in its parts. -/
structure ParsedReturnPath where
  emailId : Text
  index : ℕ
  mac : List UInt8
  domain : Text
  deriving DecidableEq

/-- The columns of an email that are read. -/
structure EmailRow (τ : Type) where
  id : Text
  apiKeyId : Text
  fromAddress : Text
  toAddress : Text
  cc : Option Text
  bcc : Option Text
  tags : Option τ

/-- `OriginalEmail`. -/
structure OriginalEmail (τ : Type) where
  id : Text
  apiKeyId : Text
  tags : Option τ
  deriving DecidableEq

/-- What a verified return path binds a notification to. -/
structure ReturnPathBinding (τ : Type) where
  email : OriginalEmail τ
  recipient : Text
  deriving DecidableEq

section ReturnPath

variable {τ : Type} (toLowerCase : Text → Text) (hmac : Hmac)

/-- The text the MAC is computed over. -/
def macInput (subject : ReturnPathSubject) : Text :=
  join ":" ["verp:v1", subject.emailId, decimal subject.index, toLowerCase (trim subject.recipient)]

/-- The truncated MAC of a subject. -/
def computeMac (subject : ReturnPathSubject) : List UInt8 :=
  truncated hmac MAC_BYTES (macInput toLowerCase subject)

/-- The local part of a return path. -/
def returnPathLocalPart (hex : Text) (subject : ReturnPathSubject) : Text :=
  "b+" ++ (hex ++ '.' :: (decimal subject.index ++ '.' :: toHex (computeMac toLowerCase hmac subject)))

/-- The return path for a subject at a sender domain. -/
def mintReturnPath (subject : ReturnPathSubject) (senderDomain : Text) : Option Text :=
  let domain := toLowerCase (trim senderDomain)
  match EMAIL_ID_RE subject.emailId with
  | none => none
  | some hex =>
    if domain = [] then none
    else if MAX_RECIPIENT_INDEX < subject.index then none
    else
      let localPart := returnPathLocalPart toLowerCase hmac hex subject
      if MAX_LOCAL_PART_LENGTH < utf16Length localPart then none
      else
        let address := localPart ++ '@' :: domain
        if utf16Length address ≤ MAX_ADDRESS_LENGTH then some address else none

/-- The index of a return path: `0|[1-9][0-9]{0,5}`. -/
def isIndex (s : Text) : Bool := isNumeral s && s.length ≤ 6

/-- `RETURN_PATH_RE`: id hex, index, MAC and domain. -/
def RETURN_PATH_RE (s : Text) : Option (Text × Text × Text × Text) :=
  match s.splitOn '@' with
  | [localPart, domain] =>
    if domain = [] ∨ localPart.take 2 ≠ "b+" then none
    else
      match (localPart.drop 2).splitOn '.' with
      | [hex, index, mac] =>
        if isHex 24 hex && isIndex index && isHex 24 mac then some (hex, index, mac, domain) else none
      | _ => none
  | _ => none

/-- Splits a presented return path into its parts. -/
def parseReturnPath (address : Text) : Option ParsedReturnPath :=
  if MAX_ADDRESS_LENGTH < utf16Length address then none
  else (RETURN_PATH_RE (toLowerCase (trim address))).map fun (hex, index, mac, domain) =>
    { emailId := "msg_" ++ hex, index := ofDecimal index, mac := fromHex mac, domain }

/-- Whether a presented MAC is that of a subject. -/
def returnPathMacMatches (subject : ReturnPathSubject) (presented : List UInt8) : Bool :=
  let expected := computeMac toLowerCase hmac subject
  presented.length = expected.length && expected = presented

/-- What a presented return path binds to, read from the email's row. -/
def resolveReturnPath (emails : Table (EmailRow.id (τ := τ))) (address : Text) :
    Option (ReturnPathBinding τ) := do
  let parsed ← parseReturnPath toLowerCase address
  let row ← emails.find? parsed.emailId
  let recipient ← (recipientOrder toLowerCase row.toAddress row.cc row.bcc)[parsed.index]?
  if !returnPathMacMatches toLowerCase hmac ⟨row.id, parsed.index, recipient⟩ parsed.mac then none
  else if toLowerCase (trim (afterLast '@' row.fromAddress)) ≠ parsed.domain then none
  else some ⟨⟨row.id, row.apiKeyId, row.tags⟩, recipient⟩

/-- The return paths of an email. -/
def EmailRow.returnPaths (row : EmailRow τ) : Emails.ReturnPaths :=
  Emails.returnPathsFor toLowerCase
    (fun emailId index recipient => mintReturnPath toLowerCase hmac ⟨emailId, index, recipient⟩)
    row.id row.fromAddress row.toAddress row.cc row.bcc

/-- A return path of an email was minted for a recipient. -/
def Mints (row : EmailRow τ) (recipient address : Text) : Prop :=
  ∃ index, (row.returnPaths toLowerCase hmac).get? recipient = some ⟨index, some address⟩

end ReturnPath

end BunMail.Bounces
