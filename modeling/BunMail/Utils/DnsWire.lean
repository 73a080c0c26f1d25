import BunMail.Lib.DnsMessage
import BunMail.Lib.Table

/-!
# TXT lookups on the wire

`utils/dns-wire.ts`: the names a query can carry, the query, and the parse of a response.  A read of
the message that leaves it, and a loop that does not end, are faults of their own, which nothing
catches.  `nameKey` is one-to-one, so a name is its own key.
-/

namespace BunMail.DnsWire

open Text Dns

/-- `DnsTxtErrorCode`, those that a response gives. -/
inductive DnsTxtErrorCode
  | ENOTFOUND | ENODATA | ESERVFAIL | EREFUSED | ENOTIMP | EFORMERR | EBADRESP
  deriving DecidableEq

/-- `TxtQuestion`. -/
structure TxtQuestion where
  id : ℕ
  labels : List Text

/-- `TxtResponseOutcome`. -/
inductive TxtResponseOutcome
  | mismatch
  | truncated
  | records (records : List (List Text))
  | error (code : DnsTxtErrorCode)
  deriving DecidableEq

/-- `DNS_HEADER_BYTES`. -/
def DNS_HEADER_BYTES : ℕ := 12

/-- `EDNS_UDP_PAYLOAD`. -/
def EDNS_UDP_PAYLOAD : ℕ := 1232

/-- `MAX_NAME_WIRE_BYTES`. -/
def MAX_NAME_WIRE_BYTES : ℕ := 255

/-- `MAX_NAME_TEXT_LENGTH`. -/
def MAX_NAME_TEXT_LENGTH : ℕ := 253

/-- `MAX_LABEL_LENGTH`. -/
def MAX_LABEL_LENGTH : ℕ := 63

/-- `MAX_POINTER_JUMPS`. -/
def MAX_POINTER_JUMPS : ℕ := 32

/-- `MAX_CNAME_LINKS`. -/
def MAX_CNAME_LINKS : ℕ := 16

/-- `RCODE_ERRORS`, with `EBADRESP` for the codes not listed. -/
def rcodeError : ℕ → DnsTxtErrorCode
  | 1 => .EFORMERR
  | 2 => .ESERVFAIL
  | 3 => .ENOTFOUND
  | 4 => .ENOTIMP
  | 5 => .EREFUSED
  | _ => .EBADRESP

/-- `QUESTIONLESS_RCODES`. -/
def QUESTIONLESS_RCODES : List ℕ := [1, 2, 4, 5]

/-! ## The query -/

/-- A character that a label may hold. -/
def labelChar (c : Char) : Bool :=
  decide (0x21 ≤ c.toNat) && decide (c.toNat ≤ 0x7e) && decide (c.toNat ≠ 0x5c)

/-- `nameLabels`. -/
def nameLabels (hostname : Text) : Option (List Text) :=
  let name := if hostname.getLast? = some '.' then hostname.dropLast else hostname
  if name = [] ∨ MAX_NAME_TEXT_LENGTH < utf16Length name then none
  else
    let labels := name.splitOn '.'
    if labels.all fun label =>
        decide (label ≠ []) && decide (utf16Length label ≤ MAX_LABEL_LENGTH) && label.all labelChar then
      some (labels.map asciiLower)
    else none

/-- `view.setUint16`, as the two bytes it writes. -/
def bytes16 (n : ℕ) : Bytes := [UInt8.ofNat (n / 256), UInt8.ofNat n]

/-- One label of the question. -/
def labelBytes (label : Text) : Bytes :=
  UInt8.ofNat label.length :: label.map fun c => UInt8.ofNat c.toNat

/-- `encodeQuery`. -/
def encodeQuery (question : TxtQuestion) (edns : Bool) : Bytes :=
  bytes16 question.id ++ bytes16 0x0100 ++ bytes16 1 ++ bytes16 0 ++ bytes16 0 ++
    bytes16 (if edns then 1 else 0) ++
    (question.labels.map labelBytes).flatten ++ [0] ++ bytes16 TYPE_TXT ++ bytes16 CLASS_IN ++
    if edns then [0] ++ bytes16 TYPE_OPT ++ bytes16 EDNS_UDP_PAYLOAD ++ [0, 0, 0, 0, 0, 0] else []

/-! ## Reading -/

/-- What stops a parse: a malformed response, a read outside of it, or a loop without end. -/
inductive Fault
  | malformed | outside | endless
  deriving DecidableEq

variable (message : Bytes)

/-- `view.getUint16`. -/
def getUint16 (i : ℕ) : Except Fault ℕ := (u16 message i).elim (.error .outside) .ok

/-- `view.getUint32`. -/
def getUint32 (i : ℕ) : Except Fault ℕ := (u32 message i).elim (.error .outside) .ok

/-- `latin1`. -/
def latin1 (start stop : ℕ) : Except Fault Text :=
  if start ≤ stop ∧ stop ≤ message.length then .ok (text message start stop) else .error .outside

/-- The loop of `readName`; `steps` bounds its turns. -/
def readLabels : (steps : ℕ) → (labels : List Text) → (at_ : ℕ) → (next : Option ℕ) →
    (wireBytes jumps : ℕ) → Except Fault (List Text × ℕ)
  | 0, _, _, _, _, _ => .error .endless
  | steps + 1, labels, at_, next, wireBytes, jumps =>
    match message[at_]? with
    | none => .error .malformed
    | some length =>
      if length &&& 0xc0 = 0xc0 then
        match message[at_ + 1]? with
        | none => .error .malformed
        | some low =>
          let target := (length &&& 0x3f).toNat <<< 8 ||| low.toNat
          if at_ ≤ target ∨ target < DNS_HEADER_BYTES then .error .malformed
          else if MAX_POINTER_JUMPS < jumps + 1 then .error .malformed
          else readLabels steps labels target (next.or (some (at_ + 2))) wireBytes (jumps + 1)
      else if length &&& 0xc0 ≠ 0 then .error .malformed
      else if MAX_NAME_WIRE_BYTES < wireBytes + (length.toNat + 1) then .error .malformed
      else if length = 0 then .ok (labels, next.getD (at_ + 1))
      else
        let stop := at_ + 1 + length.toNat
        if message.length < stop then .error .malformed
        else do
          let label ← latin1 message (at_ + 1) stop
          readLabels steps (labels ++ [asciiLower label]) stop next (wireBytes + (length.toNat + 1))
            jumps

/-- `readName`. -/
def readName (start : ℕ) : Except Fault (List Text × ℕ) :=
  readLabels message (MAX_NAME_WIRE_BYTES + MAX_POINTER_JUMPS + 2) [] start none 0 0

/-- `readRecord`. -/
def readRecord (start : ℕ) : Except Fault Record := do
  let (labels, next) ← readName message start
  if message.length < next + 10 then .error .malformed
  else
    let rdlength ← getUint16 message (next + 8)
    let rdataStart := next + 10
    let rdataEnd := rdataStart + rdlength
    if message.length < rdataEnd then .error .malformed
    else
      let type ← getUint16 message next
      let rrClass ← getUint16 message (next + 2)
      let ttl ← getUint32 message (next + 4)
      .ok { owner := labels, type, rrClass, ttl, rdataStart, rdataEnd }

/-- The loop of `txtStrings`; `steps` bounds its turns. -/
def readStrings (stop : ℕ) : (steps : ℕ) → (strings : List Text) → (at_ : ℕ) →
    Except Fault (List Text)
  | 0, _, _ => .error .endless
  | steps + 1, strings, at_ =>
    if at_ < stop then
      let length := (message[at_]?.getD 0).toNat
      let last := at_ + 1 + length
      if stop < last then .error .malformed
      else do
        let string ← latin1 message (at_ + 1) last
        readStrings stop steps (strings ++ [string]) last
    else .ok strings

/-- `txtStrings`. -/
def txtStrings (record : Record) : Except Fault (List Text) := do
  let strings ← readStrings message record.rdataEnd (record.rdataEnd + 1) [] record.rdataStart
  if strings = [] then .error .malformed else .ok strings

/-! ## Sections -/

/-- The variables of the loop over the sections. -/
structure SectionState where
  answers : List Record
  optRecords : ℕ
  rcode : ℕ

/-- What the loop does with the `i`th record. -/
def takeRecord (answerCount authorityCount i : ℕ) (s : SectionState) (record : Record) :
    Except Fault SectionState :=
  if i < answerCount then .ok { s with answers := s.answers ++ [record] }
  else if answerCount + authorityCount ≤ i ∧ record.type = TYPE_OPT then
    if 1 < s.optRecords + 1 ∨ 0 < record.owner.length then .error .malformed
    else .ok { s with
      optRecords := s.optRecords + 1
      rcode := s.rcode ||| (record.ttl >>> 24) <<< 4 }
  else .ok s

/-- The loop over the sections, with `left` records to come at `at_`. -/
def readRecords (answerCount authorityCount : ℕ) : (left i at_ : ℕ) → SectionState →
    Except Fault SectionState
  | 0, _, _, s => .ok s
  | left + 1, i, at_, s => do
    let record ← readRecord message at_
    let s ← takeRecord answerCount authorityCount i s record
    readRecords answerCount authorityCount left (i + 1) record.rdataEnd s

/-- A map from the owners of CNAME records to their targets. -/
abbrev Targets := Table (Prod.fst : List Text × List Text → List Text)

/-- The first loop of `chainOwners`. -/
def addTargets (targets : Targets) : List Record → Except Fault Targets
  | [] => .ok targets
  | record :: records =>
    if record.type ≠ TYPE_CNAME ∨ record.rrClass ≠ CLASS_IN then addTargets targets records
    else do
      let (target, next) ← readName message record.rdataStart
      if next ≠ record.rdataEnd then .error .malformed
      else if (targets.get? record.owner).any fun known => decide (known ≠ target) then
        .error .malformed
      else addTargets (targets.put record.owner target) records

/-- The second loop of `chainOwners`, with `left` links still allowed. -/
def walk (targets : Targets) : (left : ℕ) → (current : List Text) → (owners : List (List Text)) →
    Except Fault (List (List Text))
  | left, current, owners =>
    match targets.get? current with
    | none => .ok owners
    | some target =>
      match left with
      | 0 => .error .malformed
      | left + 1 => if target ∈ owners then .ok owners else walk targets left target (owners ++ [target])

/-- `chainOwners`. -/
def chainOwners (answers : List Record) (asked : List Text) : Except Fault (List (List Text)) := do
  let targets ← addTargets message Table.empty answers
  walk targets MAX_CNAME_LINKS asked [asked]

/-- The loop over the TXT records. -/
def collect (owners : List (List Text)) : List Record → Except Fault (List (List Text))
  | [] => .ok []
  | record :: answers =>
    if record.type ≠ TYPE_TXT then collect owners answers
    else do
      let strings ← txtStrings message record
      let records ← collect owners answers
      if record.rrClass = CLASS_IN ∧ record.owner ∈ owners then .ok (strings :: records)
      else .ok records

/-- `readSections`. -/
def readSections (start headerRcode : ℕ) (question : TxtQuestion) :
    Except Fault TxtResponseOutcome := do
  let answerCount ← getUint16 message 6
  let authorityCount ← getUint16 message 8
  let additionalCount ← getUint16 message 10
  let s ← readRecords message answerCount authorityCount
    (answerCount + authorityCount + additionalCount) 0 start
    { answers := [], optRecords := 0, rcode := headerRcode }
  if s.rcode ≠ 0 then .ok (.error (rcodeError s.rcode))
  else do
    let owners ← chainOwners message s.answers question.labels
    let records ← collect message owners s.answers
    .ok (if records = [] then .error .ENODATA else .records records)

/-- The question of the response: where the sections start, `none` where it is not ours. -/
def readQuestion (question : TxtQuestion) : Except Fault (Option ℕ) := do
  let (labels, next) ← readName message DNS_HEADER_BYTES
  if message.length < next + 4 then .ok none
  else
    let type ← getUint16 message next
    let qclass ← getUint16 message (next + 2)
    if labels ≠ question.labels ∨ type ≠ TYPE_TXT ∨ qclass ≠ CLASS_IN then .ok none
    else .ok (some (next + 4))

/-- What follows our question: what is malformed there is an error. -/
def readAnswer (flags start : ℕ) (question : TxtQuestion) : Except Fault TxtResponseOutcome :=
  if flags &&& 0x0200 ≠ 0 then .ok .truncated
  else
    match readSections message start (flags &&& 0x0f) question with
    | .error .malformed => .ok (.error .EBADRESP)
    | result => result

/-- The response from its question on: one that cannot be read is not ours. -/
def readResponse (flags : ℕ) (question : TxtQuestion) : Except Fault TxtResponseOutcome :=
  match readQuestion message question with
  | .error .malformed => .ok .mismatch
  | .error fault => .error fault
  | .ok none => .ok .mismatch
  | .ok (some start) => readAnswer message flags start question

/-- `parseTxtResponse`. -/
def parseTxtResponse (question : TxtQuestion) : Except Fault TxtResponseOutcome :=
  if message.length < DNS_HEADER_BYTES then .ok .mismatch
  else do
    let flags ← getUint16 message 2
    let id ← getUint16 message 0
    if id ≠ question.id ∨ flags &&& 0x8000 = 0 ∨ (flags >>> 11) &&& 0x0f ≠ 0 then .ok .mismatch
    else
      let questionCount ← getUint16 message 4
      if questionCount = 0 ∧ flags &&& 0x0f ∈ QUESTIONLESS_RCODES then
        .ok (.error (rcodeError (flags &&& 0x0f)))
      else if questionCount ≠ 1 then .ok .mismatch
      else
        readResponse message flags question

end BunMail.DnsWire
