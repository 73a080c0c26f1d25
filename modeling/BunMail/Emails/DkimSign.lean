import BunMail.Emails.DkimSigner
import BunMail.Emails.HtmlToText
import BunMail.Inbound.DkimVerifier

/-!
# Signing a message

`dkimSignMessage` of `dkim-signer.service.ts`: the wire form of the message, the folded tag list and the
signature over the field with an empty `b=`.
-/

namespace BunMail.Emails.DkimSigner

open CodeUnits Lines Inbound.DkimCanonical Inbound.DkimVerifier

/-- `mailer-message.service.ts`. -/
structure DkimOptions where
  domainName : CodeUnits
  keySelector : CodeUnits
  privateKey : CodeUnits
  deriving DecidableEq

/-- `DkimSignError`, or the error of `createPrivateKey`. -/
inductive DkimSignError
  | error (message : CodeUnits)
  | unreadableKey
  deriving DecidableEq

def FOLD_AT : ℕ := 76

/-- `replace(/\r\n|\r|\n/g, "\r\n")`. -/
def wireBreaks : CodeUnits → CodeUnits
  | [] => []
  | [u] => if u = 0x0d ∨ u = 0x0a then crlf else [u]
  | u :: v :: s =>
    if u = 0x0d ∧ v = 0x0a then crlf ++ wireBreaks s
    else if u = 0x0d ∨ u = 0x0a then crlf ++ wireBreaks (v :: s)
    else u :: wireBreaks (v :: s)

def wireText (message : List UInt8) : CodeUnits :=
  let text := wireBreaks (message.map UInt8.toUInt16)
  if crlf <:+ text then text else text ++ crlf

/-! ## Folding -/

/-- The variables of `foldSignature`. -/
structure Folding where
  lines : List CodeUnits
  line : CodeUnits
  deriving DecidableEq

/-- `append`. -/
def Folding.append (st : Folding) (piece : CodeUnits) (spaced : Bool) : Folding :=
  if FOLD_AT < st.line.length + (if spaced then 1 else 0) + piece.length ∧ HtmlToText.trim st.line ≠ [] then
    ⟨st.lines ++ [st.line], 0x20 :: piece⟩
  else ⟨st.lines, st.line ++ (if spaced then 0x20 :: piece else piece)⟩

/-- The turns of the `while` loop of `appendBase64`. -/
def Folding.fill : ℕ → Folding → CodeUnits → Folding
  | 0, st, _ => st
  | turns + 1, st, rest =>
    if rest = [] then st
    else if FOLD_AT ≤ st.line.length then fill turns ⟨st.lines ++ [st.line], [0x20]⟩ rest
    else
      let room := FOLD_AT - st.line.length
      fill turns ⟨st.lines, st.line ++ rest.take room⟩ (rest.drop room)

/-- `appendBase64`: a line is begun at most once for each character. -/
def Folding.appendBase64 (st : Folding) (value : CodeUnits) : Folding := st.fill (2 * value.length) value

/-- The entries of `h=`: each carries its `:`, and the last the end of the tag. -/
def Folding.appendEntries (last : Bool) : Folding → Bool → List CodeUnits → Folding
  | st, _, [] => st
  | st, first, entry :: entries =>
    let stop : CodeUnits := if entries ≠ [] then [0x3a] else if last then [] else [0x3b]
    appendEntries last (st.append ((if first then of "h=" else []) ++ entry ++ stop) first) false entries

/-- One tag. -/
def Folding.appendTag (st : Folding) (tag : CodeUnits) (last : Bool) : Folding :=
  let (name, value) := (cut? [0x3d] tag).getD (tag.dropLast, tag)
  if name = of "h" then st.appendEntries last true (value.splitOn 0x3a)
  else if name = of "b" then (st.append (of "b=") true).appendBase64 value
  else st.append (tag ++ if last then [] else [0x3b]) true

def Folding.appendTags : Folding → List CodeUnits → Folding
  | st, [] => st
  | st, tag :: tags => appendTags (st.appendTag tag (decide (tags = []))) tags

def foldSignature (tags : List CodeUnits) : CodeUnits :=
  let st := Folding.appendTags ⟨[], of "DKIM-Signature:"⟩ tags
  joinLines 0x0d 0x0a (st.lines ++ [st.line])

/-! ## Signing -/

variable {κ π : Type} (c : Primitives κ π)

/-- `d=`, before its check. -/
def signingDomain (dkim : DkimOptions) : CodeUnits :=
  let name := HtmlToText.trim dkim.domainName
  c.toLowerCase (c.domainToASCII (if name.getLast? = some 0x2e then name.dropLast else name))

/-- `s=`, before its check. -/
def signingSelector (dkim : DkimOptions) : CodeUnits := c.toLowerCase (HtmlToText.trim dkim.keySelector)

def algorithmOf (key : κ) : Except DkimSignError Algorithm :=
  match c.privateKeyType key with
  | .rsa => .ok .rsaSha256
  | .ed25519 => .ok .ed25519Sha256
  | .other name => .error (.error (of "Unsupported DKIM key type: " ++ name))

/-- The tags before `b=`. -/
def signatureTags (algorithm : Algorithm) (domain selector bodyHash : CodeUnits) (names : List CodeUnits) :
    List CodeUnits :=
  [of "v=1", of "a=" ++ algorithm.name, of "c=relaxed/relaxed", of "d=" ++ domain, of "q=dns/txt",
    of "s=" ++ selector, of "bh=" ++ bodyHash, of "h=" ++ [0x3a].intercalate names]

/-- What the signature is over. -/
def signatureData (fields : List HeaderField) (names : List CodeUnits) (tags : List CodeUnits) : List UInt8 :=
  signedHeaderData fields ⟨of "dkim-signature", foldSignature (tags ++ [of "b="])⟩ .relaxed names

def signWith (algorithm : Algorithm) (data : List UInt8) (key : κ) : List UInt8 :=
  match algorithm with
  | .ed25519Sha256 => c.sign none (c.sha256 data).toList key
  | .rsaSha256 => c.sign (some (of "sha256")) data key

def dkimSignMessage (message : List UInt8) (dkim : DkimOptions) : Except DkimSignError (List UInt8) := do
  let domain := signingDomain c dkim
  if !isDomainName domain then throw (.error (of "Invalid DKIM signing domain"))
  let selector := signingSelector c dkim
  if !isSelector selector then throw (.error (of "Invalid DKIM selector"))
  let key ← (c.createPrivateKey dkim.privateKey).elim (.error .unreadableKey) .ok
  let algorithm ← algorithmOf c key
  let text := wireText message
  let (fields, body) := splitMessage (latin1 text)
  let names := signedHeaderNames fields
  let tags := signatureTags algorithm domain selector (hashBase64 c (canonicalBody body .relaxed)) names
  let signature := signWith c algorithm (signatureData fields names tags) key
  let field := foldSignature (tags ++ [of "b=" ++ Base64.encode signature])
  return latin1 (field ++ crlf ++ text)

end BunMail.Emails.DkimSigner
