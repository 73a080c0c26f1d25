import BunMail.Lib.CodeUnits
import Mathlib.Data.List.Nodup
import Mathlib.Tactic

/-!
# Reply threading

`threading.ts`: the message ids of a header field, the chain of a reply, and the headers that carry it.
Every field comes from the sender of a message; only valid ids are read from it, and a reply's headers
are built from those alone.
-/

namespace BunMail.Inbound

open CodeUnits

/-- `MAX_MESSAGE_ID_LENGTH`. -/
def MAX_MESSAGE_ID_LENGTH : ℕ := 250

/-- `MAX_THREAD_IDS`. -/
def MAX_THREAD_IDS : ℕ := 20

/-- `MAX_CUSTOM_HEADER_VALUE_LENGTH`. -/
def MAX_CUSTOM_HEADER_VALUE_LENGTH : ℕ := 998

/-! ## Message ids -/

/-- `[A-Za-z0-9!#$%&'*+/=?^_\x60\x7b|\x7d~.-]`. -/
def isAtext (u : UInt16) : Bool :=
  isLetter u || isDigit u || u ∈ [0x21, 0x23, 0x24, 0x25, 0x26, 0x27, 0x2a, 0x2b, 0x2f, 0x3d, 0x3f,
    0x5e, 0x5f, 0x60, 0x7b, 0x7c, 0x7d, 0x7e, 0x2e, 0x2d]

/-- `[\x21-\x5a\x5e-\x7e]`. -/
def isDtext (u : UInt16) : Bool := (0x21 ≤ u && u ≤ 0x5a) || (0x5e ≤ u && u ≤ 0x7e)

/-- What follows the `@`, up to the end of the id. -/
def isRightPart (s : CodeUnits) : Bool :=
  (s ≠ [] && s.all isAtext) ||
    (s.head? = some 0x5b && s.tail.getLast? = some 0x5d && s.tail.dropLast.all isDtext)

/-- `MESSAGE_ID_PATTERN`. -/
def messageIdPattern (id : CodeUnits) : Bool :=
  let left := id.tail.takeWhile isAtext
  let rest := id.tail.dropWhile isAtext
  id.head? = some 0x3c && left ≠ [] && rest.head? = some 0x40 && rest.tail.getLast? = some 0x3e &&
    isRightPart rest.tail.dropLast

/-- `isValidMessageId`. -/
def isValidMessageId (id : CodeUnits) : Bool := id.length ≤ MAX_MESSAGE_ID_LENGTH && messageIdPattern id

/-! ## The scanner -/

/-- A space or a tab. -/
def isBlank (u : UInt16) : Bool := u = 0x20 || u = 0x09

/-- A line break that is followed by a blank stands here; of its two units, the second is tested again
when the scan gets there. -/
def foldsHere : CodeUnits → Bool
  | u :: v :: s => (u = 0x0a && isBlank v) || (u = 0x0d && v = 0x0a && s.head?.any isBlank)
  | _ => false

/-- `value.replace(/\r?\n(?=[ \t])/g, "")`. -/
def unfold_ : CodeUnits → CodeUnits
  | [] => []
  | u :: s => if foldsHere (u :: s) then unfold_ s else u :: unfold_ s

/-- The variables of `extractMessageIds`.  `start` holds what was read since the `<`, and `escaped` is
set when the next unit is jumped over. -/
structure Scan where
  ids : List CodeUnits
  start : Option CodeUnits
  skipping : Bool
  depth : ℕ
  escaped : Bool

/-- Before the first unit. -/
def Scan.begin : Scan := { ids := [], start := none, skipping := false, depth := 0, escaped := false }

/-- A unit of an id. -/
def turnInId (s : Scan) (read : CodeUnits) (c : UInt16) : Scan :=
  if c = 0x3e then
    if isValidMessageId (read ++ [c]) && (read ++ [c]) ∉ s.ids then
      { s with ids := s.ids ++ [read ++ [c]], start := none }
    else { s with start := none }
  else if c = 0x3c then { s with start := some [c] }
  else if MAX_MESSAGE_ID_LENGTH ≤ read.length then { s with start := none, skipping := true }
  else { s with start := some (read ++ [c]) }

/-- A unit of a comment. -/
def turnInComment (s : Scan) (c : UInt16) : Scan :=
  if c = 0x5c then { s with escaped := true }
  else if c = 0x28 then { s with depth := s.depth + 1 }
  else if c = 0x29 then { s with depth := s.depth - 1 }
  else s

/-- A unit outside ids. -/
def turnOutside (s : Scan) (c : UInt16) : Scan :=
  if 0 < s.depth then turnInComment s c
  else if c = 0x28 then { s with depth := 1 }
  else if c = 0x3c then { s with start := some [c] }
  else s

/-- One turn of the loop. -/
def turn (s : Scan) (c : UInt16) : Scan :=
  if s.escaped then { s with escaped := false }
  else if s.skipping then if c = 0x3e then { s with skipping := false } else s
  else s.start.elim (turnOutside s c) fun read => turnInId s read c

/-- `extractMessageIds`. -/
def extractMessageIds (value : CodeUnits) : List CodeUnits := ((unfold_ value).foldl turn .begin).ids

/-! ## Chains -/

/-- `ids.slice(-n)`; `-0` is the start. -/
def lastIds (n : ℕ) (ids : List CodeUnits) : List CodeUnits := if n = 0 then ids else ids.drop (ids.length - n)

/-- `capThreadIds`. -/
def capThreadIds (ids : List CodeUnits) (max : ℕ) : List CodeUnits :=
  if ids.length ≤ max then ids
  else if max ≤ 1 then lastIds max ids
  else ids.take 1 ++ ids.drop (ids.length - (max - 1))

/-- The loop of `fitThreadIds`; each turn removes an id. -/
def fitLoop (maxLength : ℕ) : (turns : ℕ) → List CodeUnits → List CodeUnits
  | 0, kept => kept
  | turns + 1, kept =>
    if 1 < kept.length ∧ maxLength < (spaced kept).length then
      fitLoop maxLength turns (kept.eraseIdx (if 2 < kept.length then 1 else 0))
    else kept

/-- `fitThreadIds`. -/
def fitThreadIds (ids : List CodeUnits) (maxLength : ℕ) : List CodeUnits := fitLoop maxLength ids.length ids

/-! ## Headers -/

/-- `ThreadingIds`. -/
structure ThreadingIds where
  messageId : Option CodeUnits
  inReplyTo : List CodeUnits
  references : List CodeUnits

/-- `RawHeaderLine`. -/
structure RawHeaderLine where
  key : CodeUnits
  line : CodeUnits

/-- The value of the first line of a field.  A line without a colon is passed over. -/
def firstValue (lines : List RawHeaderLine) (name : CodeUnits) : CodeUnits :=
  ((lines.filter fun l => l.key.map lower = name && 0x3a ∈ l.line).head?.map fun l =>
    (l.line.dropWhile (· ≠ 0x3a)).tail).getD []

/-- `threadingIdsFromHeaderLines`. -/
def threadingIdsFromHeaderLines (lines : List RawHeaderLine) : ThreadingIds :=
  { messageId := (extractMessageIds (firstValue lines (.of "message-id"))).head?
    inReplyTo := capThreadIds (extractMessageIds (firstValue lines (.of "in-reply-to"))) MAX_THREAD_IDS
    references :=
      capThreadIds (extractMessageIds (firstValue lines (.of "references"))) MAX_THREAD_IDS }

/-- `joinThreadIds`. -/
def joinThreadIds (ids : List CodeUnits) : Option CodeUnits := if ids = [] then none else some (spaced ids)

/-- `StoredThreading`. -/
structure StoredThreading where
  messageId : Option CodeUnits
  inReplyTo : Option CodeUnits
  references : Option CodeUnits

/-- `ReplyThreadingHeaders`. -/
structure ReplyThreadingHeaders where
  inReplyTo : CodeUnits
  references : CodeUnits

/-- `chain` of `buildReplyHeaders`. -/
def parentChain (parent : StoredThreading) : List CodeUnits :=
  let chain := extractMessageIds (parent.references.getD [])
  if chain = [] then
    let inReplyTo := extractMessageIds (parent.inReplyTo.getD [])
    if inReplyTo.length = 1 then inReplyTo else chain
  else chain

/-- `buildReplyHeaders`. -/
def buildReplyHeaders (parent : StoredThreading) : Option ReplyThreadingHeaders :=
  (extractMessageIds (parent.messageId.getD [])).head?.map fun messageId =>
    let ids := fitThreadIds
      (capThreadIds (((parentChain parent).filter fun id => id ≠ messageId) ++ [messageId])
        MAX_THREAD_IDS) MAX_CUSTOM_HEADER_VALUE_LENGTH
    { inReplyTo := messageId, references := spaced ids }

end BunMail.Inbound
