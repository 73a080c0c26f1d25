import BunMail.Inbound.DkimSigned
import BunMail.Lib.Base64

/-!
# The DKIM verifier

The tag lists, signatures and key records of `dkim-verifier-parse.service.ts` and
`dkim-verifier-key.service.ts`, and the verdicts of `dkim-verifier.service.ts`.  Keys, hashes and the
conversion of names are parameters.  The TXT lookup answers a name the same way each time it is asked,
which its cache for the message sees to.
-/

namespace BunMail.Inbound.DkimVerifier

open CodeUnits DkimCanonical

/-! ## Texts -/

/-- `[a-z0-9]`. -/
def isAlnum (u : UInt16) : Bool := (0x61 ≤ u && u ≤ 0x7a) || isDigit u

/-- `DOMAIN_LABEL`. -/
def isDomainLabel (label : CodeUnits) : Bool :=
  label.head?.any isAlnum && label.getLast?.any isAlnum && label.all (fun u => isAlnum u || u == 0x2d) &&
    decide (label.length ≤ 63)

/-- `SELECTOR`. -/
def isSelector (value : CodeUnits) : Bool := (value.splitOn 0x2e).all isDomainLabel

/-- `DOMAIN_NAME`. -/
def isDomainName (value : CodeUnits) : Bool := isSelector value && value.contains 0x2e

/-- `TAG_NAME`. -/
def isTagName (name : CodeUnits) : Bool :=
  name.head?.any isLetter && name.all fun u => isLetter u || isDigit u || u == 0x5f

/-- `BAD_TAG_VALUE_CHAR`. -/
def badTagValueChar (u : UInt16) : Bool :=
  !((0x21 ≤ u && u ≤ 0x3a) || (0x3c ≤ u && u ≤ 0x7e) || (0x80 ≤ u && u ≤ 0xff) || isFws u)

def stripFws (value : CodeUnits) : CodeUnits := value.filter fun u => !isFws u

/-- A `Map`. -/
abbrev Tags := List (CodeUnits × CodeUnits)

def Tags.get (tags : Tags) (name : String) : Option CodeUnits := tags.lookup (of name)

/-- The loop over the specs. -/
def parseSpecs : List CodeUnits → Tags → Option Tags
  | [], tags => some tags
  | spec :: specs, tags =>
    if trimFws spec = [] then if specs = [] then some tags else none
    else
      match cut? [0x3d] spec with
      | none => none
      | some (before, after) =>
        let name := trimFws before
        let tagValue := trimFws after
        if !isTagName name || (tags.lookup name).isSome || tagValue.any badTagValueChar then none
        else parseSpecs specs (tags ++ [(name, tagValue)])

def parseTagList (value : CodeUnits) : Option Tags := parseSpecs (value.splitOn 0x3b) []

def splitList (value : CodeUnits) : List CodeUnits := (value.splitOn 0x3a).map fun entry => lowerAscii (trimFws entry)

def fieldValue (raw : CodeUnits) : CodeUnits := ((cut? [0x3a] raw).map Prod.snd).getD []

/-- `Number.parseInt(hex, 16)` of a digit. -/
def hexValue? (u : UInt16) : Option ℕ :=
  if isDigit u then some (u.toNat - 0x30)
  else if 0x41 ≤ u && u ≤ 0x46 then some (u.toNat - 0x37)
  else if 0x61 ≤ u && u ≤ 0x66 then some (u.toNat - 0x57)
  else none

/-- `replace(/=([0-9A-Fa-f]{2})/g, …)`. -/
def decodeHex : CodeUnits → CodeUnits
  | [] => []
  | [u] => [u]
  | [u, v] => [u, v]
  | u :: v :: w :: s =>
    match if u = 0x3d then (hexValue? v).bind fun hi => (hexValue? w).map fun lo => 16 * hi + lo else none with
    | some n => UInt16.ofNat n :: decodeHex s
    | none => u :: decodeHex (v :: w :: s)

def decodeQuotedPrintable (value : CodeUnits) : CodeUnits := decodeHex (stripFws value)

/-- `Number` of digits. -/
def decimal (digits : CodeUnits) : ℕ := digits.foldl (fun n u => 10 * n + (u.toNat - 0x30)) 0

/-- `TIMESTAMP` and `BODY_LENGTH`. -/
def isNumber (maxDigits : ℕ) (value : CodeUnits) : Bool :=
  !value.isEmpty && value.all isDigit && decide (value.length ≤ maxDigits)

/-! ## What is not ours -/

inductive KeyType
  | rsa
  | ed25519
  | other (name : CodeUnits)
  deriving DecidableEq

inductive DerFormat
  | spki
  | pkcs1
  deriving DecidableEq

/-- `node:crypto` and `node:url`, with the keys `κ` and the public keys `π`. -/
structure Primitives (κ π : Type) where
  sha256 : List UInt8 → Vector UInt8 32
  /-- A PEM private key; none where it cannot be read. -/
  createPrivateKey : CodeUnits → Option κ
  privateKeyType : κ → KeyType
  /-- With the digest `sha256`, or none. -/
  sign : Option CodeUnits → List UInt8 → κ → List UInt8
  /-- A DER public key; none where it throws. -/
  createPublicKey : DerFormat → List UInt8 → Option π
  asymmetricKeyType : π → KeyType
  modulusLength : π → ℕ
  verify : Option CodeUnits → List UInt8 → π → List UInt8 → Bool
  domainToASCII : CodeUnits → CodeUnits
  utf8 : List UInt8 → CodeUnits
  toLowerCase : CodeUnits → CodeUnits

/-! ## Verdicts -/

inductive DkimResult
  | pass | fail | neutral | temperror | permerror | policy
  deriving DecidableEq

structure Failure where
  result : DkimResult
  reason : CodeUnits
  deriving DecidableEq

inductive Algorithm
  | rsaSha256
  | ed25519Sha256
  deriving DecidableEq

def Algorithm.name : Algorithm → CodeUnits
  | .rsaSha256 => of "rsa-sha256"
  | .ed25519Sha256 => of "ed25519-sha256"

def Algorithm.keyType : Algorithm → KeyType
  | .rsaSha256 => .rsa
  | .ed25519Sha256 => .ed25519

structure ParsedSignature where
  algorithm : Algorithm
  signature : List UInt8
  bodyHash : CodeUnits
  headerCanon : Canonicalization
  bodyCanon : Canonicalization
  domain : CodeUnits
  selector : CodeUnits
  signedHeaders : List CodeUnits
  identityDomain : Option CodeUnits
  bodyLength : Option ℕ
  expiration : Option ℕ

/-! ## Signatures -/

variable {κ π : Type} (c : Primitives κ π)

def toALabel (value : CodeUnits) (pattern : CodeUnits → Bool) : Option CodeUnits :=
  let ascii := if value.any (fun u => 0x80 ≤ u && u ≤ 0xff) then c.domainToASCII (c.utf8 (latin1 value)) else value
  let lower := lowerAscii ascii
  if pattern lower then some lower else none

def REQUIRED_TAGS : List String := ["v", "a", "b", "bh", "d", "h", "s"]

def syntaxError (reason : String) : Failure := ⟨.neutral, of reason⟩

/-- A check of the parser: the failure it returns. -/
def reject (bad : Bool) (failure : Failure) : Except Failure Unit := if bad then .error failure else .ok ()

@[simp] theorem reject_false (failure : Failure) : reject false failure = .ok () := rfl

/-- A part that the parser cannot do without. -/
def required {α : Type} (part : Option α) (failure : Failure) : Except Failure α := part.elim (.error failure) .ok

@[simp] theorem required_some {α : Type} (part : α) (failure : Failure) : required (some part) failure = .ok part := rfl

/-- `c=`: of the header, and of the body. -/
def canonicalizations (value : CodeUnits) : Option (Canonicalization × Canonicalization) :=
  let canon (name : CodeUnits) : Option Canonicalization :=
    if name = of "simple" then some .simple else if name = of "relaxed" then some .relaxed else none
  match (lowerAscii value).splitOn 0x2f with
  | [header] => (canon header).map fun header => (header, .simple)
  | [header, body] => (canon header).bind fun header => (canon body).map fun body => (header, body)
  | _ => none

/-- `l=`, `t=` and `x=`. -/
def number (tags : Tags) (name : String) (maxDigits : ℕ) : Except Failure (Option ℕ) :=
  match tags.get name with
  | none => .ok none
  | some value =>
    if isNumber maxDigits value then .ok (some (decimal value)) else .error (syntaxError "signature syntax error")

/-- `i=`. -/
def identity (tags : Tags) (domain : CodeUnits) : Except Failure (Option CodeUnits) :=
  match tags.get "i" with
  | none => .ok none
  | some identity =>
    let decoded := decodeQuotedPrintable identity
    -- the part after the last `@`
    let part := if decoded.contains 0x40 then toALabel c (decoded.splitOn 0x40).getLastI isDomainName else none
    match part with
    | none => .error (syntaxError "signature syntax error")
    | some identityDomain =>
      if identityDomain = domain ∨ 0x2e :: domain <:+ identityDomain then .ok (some identityDomain)
      else .error (syntaxError "i= domain is not d= or a subdomain of it")

def parseSignature (raw : CodeUnits) : Except Failure ParsedSignature := do
  let tags ← required (parseTagList (fieldValue raw)) (syntaxError "signature syntax error")
  reject (REQUIRED_TAGS.any fun tag => (tags.get tag).isNone) (syntaxError "signature missing required tag")
  reject (tags.get "v" != some (of "1")) (syntaxError "incompatible version")
  let algorithmName := lowerAscii ((tags.get "a").getD [])
  reject (algorithmName != of "rsa-sha256" && algorithmName != of "ed25519-sha256" && algorithmName != of "rsa-sha1")
    (syntaxError "unsupported algorithm")
  let signature := stripFws ((tags.get "b").getD [])
  let bodyHash := stripFws ((tags.get "bh").getD [])
  reject (!Base64.isBase64 signature || signature.length % 4 != 0 || !Base64.isBase64 bodyHash ||
    bodyHash.length % 4 != 0) (syntaxError "signature syntax error")
  let canon ← required (canonicalizations ((tags.get "c").getD (of "simple/simple")))
    (syntaxError "unsupported canonicalization")
  let domain ← required (toALabel c ((tags.get "d").getD []) isDomainName) (syntaxError "signature syntax error")
  let selector ← required (toALabel c ((tags.get "s").getD []) isSelector) (syntaxError "signature syntax error")
  let signedHeaders := splitList ((tags.get "h").getD [])
  reject (signedHeaders.contains []) (syntaxError "signature syntax error")
  reject (!signedHeaders.contains (of "from")) (syntaxError "From field not signed")
  reject ((tags.get "q").any fun query => !(splitList query).contains (of "dns/txt"))
    (syntaxError "unsupported query method")
  let identityDomain ← identity c tags domain
  let bodyLength ← number tags "l" 76
  let timestamp ← number tags "t" 12
  let expiration ← number tags "x" 12
  reject (timestamp.any fun t => expiration.any fun x => x ≤ t) (syntaxError "invalid expiration")
  reject (algorithmName == of "rsa-sha1") ⟨.policy, of "rsa-sha1 is not accepted (RFC 8301)"⟩
  return {
    algorithm := if algorithmName = of "rsa-sha256" then .rsaSha256 else .ed25519Sha256
    signature := Base64.decode signature
    bodyHash, headerCanon := canon.1, bodyCanon := canon.2, domain, selector, signedHeaders, identityDomain,
    bodyLength, expiration }

/-! ## Key records -/

/-- What the TXT lookup answers. -/
inductive Resolved
  | records (records : List (List CodeUnits))
  | error (code : Option CodeUnits)

structure DkimKey (π : Type) where
  type : KeyType
  key : π
  hashes : Option (List CodeUnits)
  flags : List CodeUnits

/-- The SubjectPublicKeyInfo prefix of an ed25519 key. -/
def ED25519_SPKI_PREFIX : List UInt8 := [0x30, 0x2a, 0x30, 0x05, 0x06, 0x03, 0x2b, 0x65, 0x70, 0x03, 0x21, 0x00]

def MIN_RSA_BITS : ℕ := 1024

/-- The candidates, each in the formats of its type. -/
def importKey (type : KeyType) (data : List UInt8) : Option π :=
  let candidates := if type = .ed25519 then if data.length = 32 then [ED25519_SPKI_PREFIX ++ data] else [] else [data]
  let formats := if type = .rsa then [DerFormat.spki, .pkcs1] else [.spki]
  candidates.findSome? fun der => formats.findSome? fun format =>
    (c.createPublicKey format der).filter fun key => c.asymmetricKeyType key = type

def permerror (reason : String) : Failure := ⟨.permerror, of reason⟩

/-- `k=`. -/
def keyTypeOf (name : CodeUnits) : Option KeyType :=
  if name = of "rsa" then some .rsa else if name = of "ed25519" then some .ed25519 else none

/-- The key of a record. -/
def readKey (record : CodeUnits) : Except Failure (DkimKey π) := do
  let tags ← required (parseTagList record) (permerror "key record syntax error")
  reject ((tags.get "v").any fun version => version ≠ of "DKIM1" ∨ (tags.head?.map Prod.fst) ≠ some (of "v"))
    (permerror "unknown key version")
  let encoded ← required (tags.get "p") (permerror "key record syntax error")
  let publicKey := stripFws encoded
  reject publicKey.isEmpty (permerror "key revoked")
  reject (!Base64.isBase64 publicKey || publicKey.length % 4 != 0) (permerror "key record syntax error")
  let type ← required (keyTypeOf (lowerAscii ((tags.get "k").getD (of "rsa")))) (permerror "unknown key type")
  reject ((tags.get "s").any fun services => !(splitList services).contains (of "email") &&
    !(splitList services).contains (of "*")) (permerror "key not for email")
  let key ← required (importKey c type (Base64.decode publicKey)) (permerror "invalid public key")
  reject (type = .rsa ∧ c.modulusLength key < MIN_RSA_BITS) ⟨.policy, of "RSA key shorter than 1024 bits"⟩
  return { type, key, hashes := (tags.get "h").map splitList, flags := splitList ((tags.get "t").getD []) }

def lookupKey (resolve : CodeUnits → Resolved) (name : CodeUnits) : Except Failure (DkimKey π) :=
  match resolve name with
  | .error code =>
    if code = some (of "ENOTFOUND") ∨ code = some (of "ENODATA") then .error (permerror "no key record")
    else .error ⟨.temperror, of "DNS failure: " ++ code.getD (of "unknown")⟩
  | .records [] => .error (permerror "no key record")
  | .records (first :: _) => readKey c first.flatten

def signatureVerifies (data : List UInt8) (signature : ParsedSignature) (key : π) : Bool :=
  match signature.algorithm with
  | .ed25519Sha256 => c.verify none (c.sha256 data).toList key signature.signature
  | .rsaSha256 => c.verify (some (of "sha256")) data key signature.signature

/-! ## Messages -/

structure DkimSignatureResult where
  result : DkimResult
  signingDomain : Option CodeUnits
  selector : Option CodeUnits
  reason : Option CodeUnits
  testing : Bool
  deriving DecidableEq

/-- `createHash("sha256").update(text, "latin1").digest("base64")`. -/
def hashBase64 (text : CodeUnits) : CodeUnits := Base64.encode (c.sha256 (latin1 text)).toList

/-- The name of the key record. -/
def keyName (selector domain : CodeUnits) : CodeUnits := selector ++ of "._domainkey." ++ domain

/-- The verdict, its reason and whether the domain is testing. -/
abbrev Outcome := DkimResult × Option CodeUnits × Bool

def Failure.outcome (failure : Failure) (testing : Bool) : Outcome := (failure.result, some failure.reason, testing)

/-- The checks with the key. -/
def checkKey (fields : List HeaderField) (field : HeaderField) (signature : ParsedSignature) (key : DkimKey π) :
    Outcome :=
  let testing := key.flags.contains (of "y")
  if signature.algorithm.keyType ≠ key.type then
    (permerror "key type does not match the signature algorithm").outcome testing
  else if key.hashes.any fun hashes => !hashes.contains (of "sha256") then
    (permerror "key does not allow sha256").outcome testing
  else if key.flags.contains (of "s") && signature.identityDomain.any fun identity => identity ≠ signature.domain then
    (permerror "key t=s forbids an i= subdomain").outcome testing
  else
    let data := signedHeaderData fields field signature.headerCanon signature.signedHeaders
    if signatureVerifies c data signature key.key then (.pass, none, testing)
    else (.fail, some (of "signature did not verify"), testing)

def verifyOne (resolve : CodeUnits → Resolved) (now : ℕ) (fields : List HeaderField) (body : CodeUnits)
    (field : HeaderField) : Outcome :=
  match parseSignature c field.raw with
  | .error failure => failure.outcome false
  | .ok signature =>
    if signature.expiration.any fun x => x * 1000 < now then (.neutral, some (of "signature expired"), false)
    else
      let canonical := canonicalBody body signature.bodyCanon
      let covered := signature.bodyLength.elim canonical canonical.take
      if hashBase64 c covered ≠ signature.bodyHash then (.fail, some (of "body hash did not verify"), false)
      else
        match lookupKey c resolve (keyName signature.selector signature.domain) with
        | .error failure => failure.outcome false
        | .ok key => checkKey c fields field signature key

def verifyDkimSignatures (resolve : CodeUnits → Resolved) (now : ℕ) (message : List UInt8) :
    List DkimSignatureResult :=
  let (fields, body) := splitMessage message
  (fields.filter (·.name = of "dkim-signature")).map fun field =>
    let tags := parseTagList (fieldValue field.raw)
    let (result, reason, testing) := verifyOne c resolve now fields body field
    { result, reason, testing
      signingDomain := tags.bind (·.get "d")
      selector := tags.bind (·.get "s") }

end BunMail.Inbound.DkimVerifier
