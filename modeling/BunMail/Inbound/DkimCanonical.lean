import BunMail.Lib.CodeUnits
import BunMail.Lib.Cut
import BunMail.Lib.Lines

/-!
# DKIM canonicalization

`dkim-verifier-canonical.service.ts` and the split of a message into fields and body of
`dkim-verifier-parse.service.ts`, next to the canonical forms of RFC 6376 section 3.4, which go line by
line.
-/

namespace BunMail.Inbound.DkimCanonical

open CodeUnits Lines

/-! ## White space -/

/-- SP or HTAB. -/
def isWsp (u : UInt16) : Bool := u == 0x20 || u == 0x09

/-- SP, HTAB, CR or LF. -/
def isFws (u : UInt16) : Bool := u == 0x20 || u == 0x09 || u == 0x0d || u == 0x0a

def crlf : CodeUnits := [0x0d, 0x0a]

/-- Both loops: from the start, and from the end. -/
def trimFws (value : CodeUnits) : CodeUnits := stripEnds isFws value

def lowerAscii (value : CodeUnits) : CodeUnits := value.map lower

/-- `replace(/\r\n/g, "")`. -/
def unfold : CodeUnits → CodeUnits
  | [] => []
  | [u] => [u]
  | u :: v :: s => if u = 0x0d ∧ v = 0x0a then unfold s else u :: unfold (v :: s)

/-- `replace(/[ \t]+/g, " ")`. -/
def reduceWsp : CodeUnits → CodeUnits
  | [] => []
  | u :: s =>
    if isWsp u then if s.head?.any isWsp then reduceWsp s else 0x20 :: reduceWsp s
    else u :: reduceWsp s

/-- `if (s.startsWith(" ")) s = s.slice(1)`. -/
def dropFirstSpace (s : CodeUnits) : CodeUnits := if s.head? = some 0x20 then s.tail else s

/-- `if (s.endsWith(" ")) s = s.slice(0, -1)`. -/
def dropLastSpace (s : CodeUnits) : CodeUnits := if s.getLast? = some 0x20 then s.dropLast else s

/-! ## The code -/

def relaxedHeader (raw : CodeUnits) : CodeUnits :=
  match cut? [0x3a] raw with
  | none => lowerAscii (trimFws (unfold raw))
  | some (before, after) =>
    let name := lowerAscii (trimFws (unfold before))
    let value := dropLastSpace (dropFirstSpace (reduceWsp (unfold after)))
    name ++ 0x3a :: value

/-- Where the loop of `trimTrailingLineBreaks` ends. -/
def lineBreaksEnd (body : CodeUnits) : ℕ → ℕ
  | n + 2 => if body[n]? = some 0x0d ∧ body[n + 1]? = some 0x0a then lineBreaksEnd body n else n + 2
  | n => n

def trimTrailingLineBreaks (body : CodeUnits) : CodeUnits := body.take (lineBreaksEnd body body.length)

inductive Canonicalization : Type
  | simple
  | relaxed

/-- `replace(/ \r\n/g, "\r\n")`. -/
def dropSpaceBreaks : CodeUnits → CodeUnits
  | [] => []
  | u :: s =>
    if u = 0x20 ∧ crlf <+: s then dropSpaceBreaks s else u :: dropSpaceBreaks s

def canonicalBody (body : CodeUnits) : Canonicalization → CodeUnits
  | .simple => trimTrailingLineBreaks body ++ crlf
  | .relaxed =>
    let relaxed := trimTrailingLineBreaks (dropLastSpace (dropSpaceBreaks (reduceWsp body)))
    if relaxed = [] then [] else relaxed ++ crlf

/-! ## The fields of a message -/

structure HeaderField where
  name : CodeUnits
  raw : CodeUnits
  deriving DecidableEq

/-- `replace(/\r?\n/g, "\r\n")`. -/
def breakLines : CodeUnits → CodeUnits
  | [] => []
  | u :: s =>
    if u = 0x0a then crlf ++ breakLines s
    else if u = 0x0d ∧ s.head? = some 0x0a then breakLines s
    else u :: breakLines s

/-- The next line of the header section. -/
def fieldTurn (fields : List CodeUnits) (line : CodeUnits) : List CodeUnits :=
  match fields.getLast? with
  | some previous =>
    if line.head?.any isWsp then fields.dropLast ++ [previous ++ crlf ++ line] else fields ++ [line]
  | none => fields ++ [line]

def headerField (raw : CodeUnits) : HeaderField :=
  { name := match cut? [0x3a] raw with
      | none => []
      | some (before, _) => lowerAscii (trimFws before)
    raw }

/-- The header section and the body. -/
def splitText (text : CodeUnits) : CodeUnits × CodeUnits :=
  if crlf <+: text then ([], text.drop 2)
  else (cut? (crlf ++ crlf) text).getD (text, [])

def splitMessage (message : List UInt8) : List HeaderField × CodeUnits :=
  let (headerText, body) := splitText (breakLines (message.map UInt8.toUInt16))
  let rows := if headerText = [] then [] else lines 0x0d 0x0a headerText
  ((rows.foldl fieldTurn []).map headerField, body)

/-! ## The canonical forms -/

/-- A line without white space at its end, and with single spaces. -/
def relaxedLine (line : CodeUnits) : CodeUnits := (reduceWsp line).rdropWhile isWsp

/-- A line as its form has it. -/
def Canonicalization.line : Canonicalization → CodeUnits → CodeUnits
  | .simple => id
  | .relaxed => relaxedLine

/-- The lines of a body in their form, without the empty ones at the end. -/
def keptLines (canon : Canonicalization) (body : CodeUnits) : List CodeUnits :=
  ((lines 0x0d 0x0a body).map canon.line).rdropWhile (· = [])

/-- The form of a body without lines. -/
def Canonicalization.emptyForm : Canonicalization → CodeUnits
  | .simple => crlf
  | .relaxed => []

/-- Section 3.4.3 or 3.4.4. -/
def bodyForm (canon : Canonicalization) (body : CodeUnits) : CodeUnits :=
  if keptLines canon body = [] then canon.emptyForm else (keptLines canon body).flatMap (· ++ crlf)

/-- A line break goes where white space follows. -/
def unfoldWsp : CodeUnits → CodeUnits
  | [] => []
  | [u] => [u]
  | u :: v :: s =>
    if u = 0x0d ∧ v = 0x0a ∧ s.head?.any isWsp then unfoldWsp s else u :: unfoldWsp (v :: s)

/-- A name without the white space at its end. -/
def bareName (name : CodeUnits) : CodeUnits := name.rdropWhile isWsp

/-- Section 3.4.2, for a field with a colon: unfolded, with single spaces, the name in lower case, and
without white space at the end or around the colon. -/
def headerForm (raw : CodeUnits) : CodeUnits :=
  let field := reduceWsp (unfoldWsp raw)
  let name := field.takeWhile (· ≠ 0x3a)
  let value := (field.dropWhile (· ≠ 0x3a)).tail
  lowerAscii (bareName name) ++ 0x3a :: stripEnds isWsp value

/-- White space with characters of the name on both sides. -/
def InnerSpace (name : CodeUnits) : Prop :=
  ∃ a u b, name = a ++ u :: b ∧ isWsp u = true ∧ (∃ v ∈ a, isWsp v = false) ∧ ∃ v ∈ b, isWsp v = false

/-- The name of a field with a colon as it stands there, unfolded. -/
def nameText (raw : CodeUnits) : CodeUnits := unfold (raw.takeWhile (· ≠ 0x3a))

end BunMail.Inbound.DkimCanonical
