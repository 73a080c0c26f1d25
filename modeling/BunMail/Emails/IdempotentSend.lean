import BunMail.Emails.CanonicalJson
import BunMail.Lib.Transactions

/-!
# Sends with an idempotency key

`createEmailIdempotent` of `email-create.service.ts` over the rows of `idempotency.service.ts`, statement by
statement.  The claim of a key locks its row, or waits for the transaction that inserts it, until the
transaction ends.  `now()` is the start of the transaction.
-/

namespace BunMail.Emails.Idempotency

open CodeUnits CanonicalJson Transactions

/-! ## Responses -/

abbrev JsonObject (ν : Type) := List (CodeUnits × Option (Json ν))

section Responses

variable {ν : Type}

/-- `body[name]`, where it is there. -/
def member (body : JsonObject ν) (name : CodeUnits) : Option (Json ν) :=
  (body.find? (·.1 = name)).bind Prod.snd

/-- `body[name] = value`: the member keeps its place, or is added at the end. -/
def setMember (body : JsonObject ν) (name : CodeUnits) (value : Json ν) : JsonObject ν :=
  if name ∈ body.map Prod.fst then body.map fun m => if m.1 = name then (name, some value) else m
  else body ++ [(name, some value)]

def CONTENT_FIELDS : List CodeUnits := [of "subject", of "html", of "text", of "headers"]

/-- `ReplayContent`: a value for each content field. -/
structure ReplayContent (ν : Type) where
  subject : Json ν
  html : Json ν
  text : Json ν
  headers : Json ν

/-- `content[name]`. -/
def ReplayContent.field (content : ReplayContent ν) (name : CodeUnits) : Json ν :=
  if name = of "subject" then content.subject
  else if name = of "html" then content.html
  else if name = of "text" then content.text
  else content.headers

def dataOf (body : JsonObject ν) : Option (JsonObject ν) :=
  match member body (of "data") with
  | some (.object data) => some data
  | _ => none

def withoutContent (body : JsonObject ν) : JsonObject ν :=
  match dataOf body with
  | none => body
  | some data => setMember body (of "data") (.object (data.filter (·.1 ∉ CONTENT_FIELDS)))

/-- The value of a content field in a replay. -/
def fill (content : Option (ReplayContent ν)) (name : CodeUnits) : Json ν :=
  content.elim .null (·.field name)

def withContent (body : JsonObject ν) (content : Option (ReplayContent ν)) : JsonObject ν :=
  match dataOf body with
  | none => body
  | some data => setMember body (of "data")
      (.object (CONTENT_FIELDS.foldl (fun filled name => setMember filled name (fill content name)) data))

end Responses

/-! ## The tables -/

/-- A row of `idempotency_keys`. -/
structure IdempotencyRecord (ν : Type) where
  apiKeyId : Text
  key : Text
  requestHash : Text
  emailId : Option Text
  responseStatus : Option ℕ
  responseBody : Option (JsonObject ν)
  expiresAt : Time

/-- The columns of the unique index. -/
def IdempotencyRecord.slot {ν : Type} (row : IdempotencyRecord ν) : Text × Text := (row.apiKeyId, row.key)

/-- The columns of `emails` a replay reads. -/
structure EmailRow (ν : Type) where
  id : Text
  apiKeyId : Text
  content : ReplayContent ν
  deleted : Bool

structure Tables (ν : Type) where
  keys : Table (IdempotencyRecord.slot (ν := ν))
  emails : Table (EmailRow.id (ν := ν))

def Tables.empty {ν : Type} : Tables ν := ⟨Table.empty, Table.empty⟩

section Send

variable {ν : Type} (ttl : ℕ)

/-- A call: the hash of its body, what `prepareEmail` answers, and `buildResponse`. -/
structure Call (ν : Type) where
  apiKeyId : Text
  key : Text
  requestHash : Text
  prepared : Option (Text × ReplayContent ν)
  buildResponse : EmailRow ν → ℕ × JsonObject ν

def Call.slot (c : Call ν) : Text × Text := (c.apiKeyId, c.key)

/-- The email a prepared call inserts. -/
def Call.email (c : Call ν) (prepared : Text × ReplayContent ν) : EmailRow ν :=
  ⟨prepared.1, c.apiKeyId, prepared.2, false⟩

/-- What a call returns, or that it throws. -/
inductive Answer (ν : Type)
  | created (status : ℕ) (body : JsonObject ν)
  | replayed (status : ℕ) (body : JsonObject ν)
  /-- `IdempotencyKeyReusedError`. -/
  | reused
  /-- `prepareEmail` throws. -/
  | refused
  | failed

/-- How far a call has come. -/
inductive Stage (ν : Type)
  | preparing
  | claiming (round : ℕ) (startedAt : Time) (email : EmailRow ν)
  /-- The claim found a live row, which it locked. -/
  | lost (round : ℕ) (startedAt : Time) (email : EmailRow ν)
  | claimed (startedAt claimedAt : Time) (email : EmailRow ν)
  | inserted (startedAt claimedAt : Time) (email : EmailRow ν)
  | completed (startedAt claimedAt : Time) (email : EmailRow ν)
  | replaying (record : IdempotencyRecord ν) (locked : Bool)
  | answered (answer : Answer ν)

structure Send (ν : Type) where
  call : Call ν
  stage : Stage ν

/-- The row its transaction has locked. -/
def locks (p : Send ν) : List ((Text × Text) × Mode) :=
  match p.stage with
  | .lost _ _ _ | .claimed _ _ _ | .inserted _ _ _ | .completed _ _ _ | .replaying _ true =>
    [(p.call.slot, .noKeyUpdate)]
  | _ => []

/-- The row of a completed claim. -/
def Call.record (c : Call ν) (startedAt : Time) (email : EmailRow ν) : IdempotencyRecord ν where
  apiKeyId := c.apiKeyId
  key := c.key
  requestHash := c.requestHash
  emailId := some email.id
  responseStatus := some (c.buildResponse email).1
  responseBody := some (withoutContent (c.buildResponse email).2)
  expiresAt := startedAt + ttl

theorem Call.slot_record (c : Call ν) (startedAt : Time) (email : EmailRow ν) :
    (c.record ttl startedAt email).slot = c.slot := rfl

/-- What the transaction has written when it commits. -/
def writes (p : Send ν) (db : Tables ν) : Tables ν :=
  match p.stage with
  | .completed startedAt _ email =>
    { keys := db.keys.upsert (p.call.record ttl startedAt email) (fun _ => p.call.record ttl startedAt email)
        fun _ h => h.symm
      emails := db.emails.insert email }
  | _ => db

/-- A key that was claimed for an email, and when. -/
structure Creation (ν : Type) where
  sender : ℕ
  call : Call ν
  email : EmailRow ν
  startedAt : Time
  claimedAt : Time

/-- The tables and the calls, the clock, and the emails created under keys so far. -/
structure Sends (ν : Type) where
  store : Store (Tables ν) (Send ν)
  now : Time
  creations : List (Creation ν)

def Sends.init : Sends ν := ⟨Store.init Tables.empty, 0, []⟩

namespace Sends

/-- The call `t` comes to a stage. -/
def comes (s : Sends ν) (t : ℕ) (p : Send ν) (stage : Stage ν) : Sends ν :=
  { s with store := s.store.put t { p with stage := stage } }

/-- `findReplayContent`. -/
def findReplayContent (s : Sends ν) (emailId : Option Text) (apiKeyId : Text) : Option (ReplayContent ν) :=
  (emailId.bind s.store.db.emails.find?).bind fun email =>
    if email.apiKeyId = apiKeyId ∧ email.deleted = false then some email.content else none

/-- `replayIdempotentSend`. -/
def replayIdempotentSend (s : Sends ν) (c : Call ν) (record : IdempotencyRecord ν) : Answer ν :=
  if record.requestHash ≠ c.requestHash then .reused
  else
    match record.responseStatus, record.responseBody with
    | some status, some body => .replayed status (withContent body (s.findReplayContent record.emailId c.apiKeyId))
    | _, _ => .failed

/-- `claimIdempotencyKey`, once it is granted the row: a live row is left as it is. -/
def claim (s : Sends ν) (c : Call ν) (round : ℕ) (startedAt : Time) (email : EmailRow ν) : Stage ν :=
  match s.store.db.keys.find? c.slot with
  | none => .claimed startedAt s.now email
  | some row =>
    if row.expiresAt ≤ startedAt then .claimed startedAt s.now email else .lost round startedAt email

/-- The commit of a completed claim. -/
def commit (s : Sends ν) (t : ℕ) (p : Send ν) (startedAt claimedAt : Time) (email : EmailRow ν) : Sends ν :=
  let response := p.call.buildResponse email
  { s with
    store := s.store.commit (writes ttl) t p { p with stage := .answered (.created response.1 response.2) }
    creations := s.creations ++ [⟨t, p.call, email, startedAt, claimedAt⟩] }

/-- The next statement of a call. -/
def next (s : Sends ν) (t : ℕ) (p : Send ν) : Sends ν :=
  match p.stage with
  | .preparing =>
    match p.call.prepared with
    | none => s.comes t p (.answered .refused)
    | some prepared => s.comes t p (.claiming 0 s.now (p.call.email prepared))
  | .claiming round startedAt email =>
    if s.store.grants locks t [(p.call.slot, .noKeyUpdate)] then
      s.comes t p (s.claim p.call round startedAt email)
    else s
  | .lost round startedAt email =>
    match s.store.db.keys.find? p.call.slot with
    | some winner => s.comes t p (.replaying winner true)
    | none =>
      if round + 1 < 2 then s.comes t p (.claiming (round + 1) startedAt email)
      else s.comes t p (.answered .failed)
  | .claimed startedAt claimedAt email => s.comes t p (.inserted startedAt claimedAt email)
  | .inserted startedAt claimedAt email => s.comes t p (.completed startedAt claimedAt email)
  | .completed startedAt claimedAt email =>
    -- `generateId` never draws an id twice
    if email.id ∈ s.creations.map (·.email.id) then s.comes t p (.answered .failed)
    else s.commit ttl t p startedAt claimedAt email
  | .replaying record _ => s.comes t p (.answered (s.replayIdempotentSend p.call record))
  | .answered _ => s

/-- A call is rolled back. -/
def rolledBack (s : Sends ν) (t : ℕ) (p : Send ν) : Sends ν :=
  match p.stage with
  | .answered _ => s
  | _ => s.comes t p (.answered .failed)

/-- `findIdempotencyRecord` with `liveOnly`, outside a transaction. -/
def begin (s : Sends ν) (t : ℕ) (c : Call ν) : Sends ν :=
  match s.store.phase? t with
  | some _ => s
  | none =>
    match s.store.db.keys.find? c.slot with
    | none => { s with store := s.store.put t ⟨c, .preparing⟩ }
    | some row =>
      if s.now < row.expiresAt then { s with store := s.store.put t ⟨c, .replaying row false⟩ }
      else { s with store := s.store.put t ⟨c, .preparing⟩ }

end Sends

inductive Step (ν : Type)
  | tick (ms : ℕ)
  | begin (t : ℕ) (c : Call ν)
  | next (t : ℕ)
  | fail (t : ℕ)
  /-- `purgeExpiredIdempotencyKeys` comes to a row, `age` after its statement started. -/
  | purge (slot : Text × Text) (age : ℕ)
  | trash (id : Text)
  /-- A permanent delete: the key's row loses its email. -/
  | remove (id : Text)

namespace Sends

/-- Nobody else holds a row of `slots`. -/
def unlocked (s : Sends ν) (slots : List (Text × Text)) : Bool :=
  s.store.txs.rows.all fun e => (locks e.2).all fun l => l.1 ∉ slots

def step (s : Sends ν) : Step ν → Sends ν
  | .tick ms => { s with now := s.now + ms }
  | .begin t c => s.begin t c
  | .next t => (s.store.phase? t).elim s (s.next ttl t)
  | .fail t => (s.store.phase? t).elim s (s.rolledBack t)
  | .purge slot age =>
    if s.unlocked [slot] then
      { s with store := { s.store with
        db := { s.store.db with
          keys := s.store.db.keys.deleteWhere fun row => row.slot = slot && decide (row.expiresAt ≤ s.now - age) } } }
    else s
  | .trash id =>
    { s with store := { s.store with
      db := { s.store.db with
        emails := s.store.db.emails.updateAll (fun e => if e.id = id then { e with deleted := true } else e)
          fun e => by split_ifs <;> rfl } } }
  | .remove id =>
    if s.unlocked ((s.store.db.keys.rows.filter fun row => row.emailId = some id).map IdempotencyRecord.slot) then
      { s with store := { s.store with
        db := { keys := s.store.db.keys.updateAll
                  (fun row => if row.emailId = some id then { row with emailId := none } else row)
                  fun row => by split_ifs <;> rfl
                emails := s.store.db.emails.deleteWhere (·.id = id) } } }
    else s

end Sends

end Send

end BunMail.Emails.Idempotency
