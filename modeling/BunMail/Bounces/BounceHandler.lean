import BunMail.Bounces.ReturnPath
import BunMail.Emails.QueueClaim
import BunMail.Lib.Run
import BunMail.Lib.Transactions
import BunMail.Suppressions.Suppression

/-!
# Bounces of an email, concurrently

A delivery status notification that came to a verified return path is handled in three parts: the
suppression on file is read, the kind and the expiry are decided from it, and one transaction files the
suppression, marks the email and enqueues the event.  A policy notification is one transaction that
only marks the email.  Any number of calls run next to each other and next to the queue, which claims
the email and writes its outcome.
-/

namespace BunMail.BounceHandler

open Emails SuppressionList Bounces Transactions

/-- `ParsedBounce.kind`. -/
inductive ParsedKind
  | hard | policy | soft
  deriving DecidableEq, Repr

structure ParsedBounce where
  kind : ParsedKind
  status : Text
  diagnostic : Option Text
  deriving DecidableEq

/-- The tags of an email. -/
abbrev EmailTags := List (Text × Text)

/-- What `handleParsedBounce` is called with. -/
structure Dsn where
  parsed : ParsedBounce
  binding : ReturnPathBinding EmailTags
  deriving DecidableEq

/-- `MAX_POLICY_ERROR_LENGTH`. -/
def MAX_POLICY_ERROR_LENGTH : ℕ := 1000

/-- The `last_error` of a policy notification. -/
def ParsedBounce.lastError (parsed : ParsedBounce) : Text :=
  Text.sliceUnits MAX_POLICY_ERROR_LENGTH
    ("Receiver refused the sender (DSN ".toList ++ parsed.status ++ ")" ++
      (parsed.diagnostic.filter (· ≠ [])).elim [] fun text => ": ".toList ++ text)

/-- A repeated soft bounce counts as a hard one. -/
def escalateIfRepeat (parsedKind : BounceType) (existing : Option Suppression) : BounceType :=
  match parsedKind with
  | .hard => .hard
  | .soft => if existing.bind Suppression.bounceType = some .soft then .hard else .soft

/-- The events the handler enqueues. -/
inductive DsnEvent
  | bounced (emailId to_ : Text) (bounceType : BounceType) (status : Text) (diagnostic : Option Text)
      (suppressionId : Option Text) (tags : Option EmailTags)
  | failed (emailId from_ to_ subject error : Text) (tags : Option EmailTags)
  deriving DecidableEq

/-- A hard or soft bounce once the suppression has been read. -/
structure Look where
  dsn : Dsn
  kind : BounceType
  lookedAt : Time
  existing : Option Suppression
  deriving DecidableEq

/-- The kind that is filed. -/
def Look.finalKind (l : Look) : BounceType := escalateIfRepeat l.kind l.existing

/-- The same once the expiry has been decided. -/
structure Decision extends Look where
  decidedAt : Time
  deriving DecidableEq

/-- The same once the suppression has been filed, under a new id. -/
structure Filing extends Decision where
  id : Text
  filedAt : Time
  deriving DecidableEq

/-- A bounce the queue files with an outcome. -/
structure Inline where
  apiKeyId : Text
  recipient : Text
  bounceType : BounceType
  code : Text
  emailId : Text
  id : Text
  filedAt : Time
  deriving DecidableEq

/-- What changed the suppressions, in order of the commits. -/
inductive Entry
  | bounce (f : Filing)
  | inline (i : Inline)
  deriving DecidableEq

/-- The database as the calls and the queue see it, with the clock and the record of the commits. -/
structure Db where
  suppressions : Suppressions
  email : Emails.EmailRow
  outbox : List DsnEvent
  now : Time
  log : List Entry

/-- How far a call has come. -/
inductive Phase
  | received (dsn : Dsn)
  | looked (l : Look)
  | decided (d : Decision)
  | filed (f : Filing)
  | marked (f : Filing) (matched : Bool) (markedAt : Time)
  | blocked (dsn : Dsn) (matched : Bool) (markedAt : Time)
  | done
  deriving DecidableEq

/-- The rows that are locked. -/
inductive RowKey
  | suppression (k : Text × Text)
  | email
  deriving DecidableEq

abbrev State := Store Db Phase

section Handler

variable (toLowerCase : Text → Text)

/-- The columns a bounce is filed under. -/
def Dsn.key (dsn : Dsn) : Text × Text :=
  (dsn.binding.email.apiKeyId, normaliseEmail toLowerCase dsn.binding.recipient)

/-- The statement that files a bounce as one of a kind. -/
def Filing.upsert (f : Filing) (kind : BounceType) : Upsert :=
  addFromBounceUpsert toLowerCase f.dsn.binding.email.apiKeyId
    { email := f.dsn.binding.recipient
      bounceType := kind
      diagnosticCode := some (f.dsn.parsed.diagnostic.getD f.dsn.parsed.status)
      sourceEmailId := some f.dsn.binding.email.id
      expiresAt := if kind = .hard then none else some (f.decidedAt + SOFT_BOUNCE_WINDOW_MS) }
    f.id f.filedAt

/-- The statement of the queue. -/
def Inline.upsert (i : Inline) : Upsert :=
  addFromBounceUpsert toLowerCase i.apiKeyId
    { email := i.recipient
      bounceType := i.bounceType
      diagnosticCode := some i.code
      sourceEmailId := some i.emailId
      expiresAt := if i.bounceType = .soft then some (i.filedAt + SOFT_BOUNCE_WINDOW_MS) else none }
    i.id i.filedAt

/-- The row locks of a phase. -/
def locks : Phase → List (RowKey × Mode)
  | .filed f => [(.suppression (f.dsn.key toLowerCase), .noKeyUpdate)]
  | .marked f matched _ =>
    (.suppression (f.dsn.key toLowerCase), .noKeyUpdate) ::
      if matched then [(.email, .noKeyUpdate)] else []
  | .blocked _ matched _ => if matched then [(.email, .noKeyUpdate)] else []
  | _ => []

/-- `markEmailBounced`: only rows the queue has finished with. -/
def markEmailBouncedWhere (emailId : Text) (row : Emails.EmailRow) : Bool :=
  row.id = emailId && (row.status = .sent || row.status = .failed)

/-- `markEmailBlocked`: only a sent email. -/
def markEmailBlockedWhere (emailId : Text) (row : Emails.EmailRow) : Bool :=
  row.id = emailId && row.status = .sent

/-- What a transaction has written. -/
def writes : Phase → Db → Db
  | .marked f matched markedAt, db =>
    let table := ((f.upsert toLowerCase f.finalKind).exec db.suppressions).1
    { db with
      suppressions := table
      email := if matched then { db.email with status := .bounced, updatedAt := markedAt } else db.email
      outbox := db.outbox ++ [.bounced f.dsn.binding.email.id f.dsn.binding.recipient f.finalKind
        f.dsn.parsed.status f.dsn.parsed.diagnostic
        ((table.find? (f.dsn.key toLowerCase)).map Suppression.id) f.dsn.binding.email.tags]
      log := db.log ++ [.bounce f] }
  | .blocked dsn true markedAt, db =>
    { db with
      email := { db.email with
        status := .failed, lastError := some dsn.parsed.lastError, updatedAt := markedAt }
      outbox := db.outbox ++ [.failed dsn.binding.email.id db.email.fromAddress db.email.toAddress
        db.email.subject dsn.parsed.lastError dsn.binding.email.tags] }
  | _, db => db

/-- What happens next. -/
inductive Action
  /-- `handleParsedBounce` is called. -/
  | receive (t : ℕ) (dsn : Dsn)
  /-- The suppression on file is read. -/
  | look (t : ℕ)
  /-- The kind and the expiry are decided. -/
  | decide (t : ℕ)
  /-- `addFromBounce` runs in the transaction. -/
  | file (t : ℕ) (id : Text)
  /-- `markEmailBounced` or `markEmailBlocked` runs in the transaction. -/
  | mark (t : ℕ)
  | commit (t : ℕ)
  /-- The call fails; nothing of it stays. -/
  | rollback (t : ℕ)
  /-- The queue claims the email. -/
  | claim (t : ℕ) (workerId : Text)
  /-- The queue writes the outcome of an attempt, with the bounces it met. -/
  | finish (t : ℕ) (workerId : Text) (claim : Claim) (values : RowValues) (bounces : List Inline)
  | tick (ms : ℕ)
  deriving DecidableEq

/-- Rows that no call holds. -/
def unlocked (s : State) (t : ℕ) (rows : List RowKey) : Bool :=
  s.phase? t = none && s.grants (locks toLowerCase) t (rows.map fun row => (row, .noKeyUpdate))

/-- The bounces of an outcome are filed one after the other. -/
def fileInline (db : Db) (i : Inline) : Db :=
  { db with
    suppressions := ((i.upsert toLowerCase).exec db.suppressions).1
    log := db.log ++ [.inline i] }

/-- The key of a bounce of the queue. -/
def Inline.key (i : Inline) : Text × Text := (i.apiKeyId, normaliseEmail toLowerCase i.recipient)

/-- A call reads the suppression on file, unless it is about the sender. -/
def lookAt (db : Db) (dsn : Dsn) (kind : BounceType) : Look where
  dsn := dsn
  kind := kind
  lookedAt := db.now
  existing := findActiveSuppression toLowerCase db.suppressions db.now dsn.binding.email.apiKeyId
    dsn.binding.recipient

/-- A statement that updates the email where it matches: it waits for the lock only then. -/
def markIf (s : State) (t : ℕ) (matched : Bool) (p : Bool → Phase) : State :=
  if matched then s.enter (locks toLowerCase) t (p true) else s.put t (p false)

def step (s : State) : Action → State
  | .receive t dsn => if s.phase? t = none then s.put t (.received dsn) else s
  | .look t =>
    match s.phase? t with
    | some (.received dsn) =>
      match dsn.parsed.kind with
      | .policy => s
      | .hard => s.put t (.looked (lookAt toLowerCase s.db dsn .hard))
      | .soft => s.put t (.looked (lookAt toLowerCase s.db dsn .soft))
    | _ => s
  | .decide t =>
    match s.phase? t with
    | some (.looked l) => s.put t (.decided { toLook := l, decidedAt := s.db.now })
    | _ => s
  | .file t id =>
    match s.phase? t with
    | some (.decided d) =>
      s.enter (locks toLowerCase) t (.filed { toDecision := d, id := id, filedAt := s.db.now })
    | _ => s
  | .mark t =>
    match s.phase? t with
    | some (.filed f) =>
      markIf toLowerCase s t (markEmailBouncedWhere f.dsn.binding.email.id s.db.email)
        fun matched => .marked f matched s.db.now
    | some (.received dsn) =>
      if dsn.parsed.kind = .policy then
        markIf toLowerCase s t (markEmailBlockedWhere dsn.binding.email.id s.db.email)
          fun matched => .blocked dsn matched s.db.now
      else s
    | _ => s
  | .commit t =>
    match s.phase? t with
    | some (.marked f matched markedAt) =>
      s.commit (writes toLowerCase) t (.marked f matched markedAt) .done
    | some (.blocked dsn matched markedAt) =>
      s.commit (writes toLowerCase) t (.blocked dsn matched markedAt) .done
    | _ => s
  | .rollback t => if s.phase? t = none then s else s.put t .done
  | .claim t workerId =>
    if unlocked toLowerCase s t [.email] then
      match claimNextEmails workerId s.db.now s.db.now s.db.email with
      | some email => { s with db := { s.db with email := email.toEmailRow } }
      | none => s
    else s
  | .finish t workerId claim values bounces =>
    if unlocked toLowerCase s t (.email :: bounces.map fun i => .suppression (i.key toLowerCase)) ∧
        values.writable claim = true then
      let db := (bounces.map fun i => { i with filedAt := s.db.now }).foldl (fileInline toLowerCase) s.db
      { s with db := { db with
        email := (releaseRow workerId claim values s.db.now s.db.now db.email).1 } }
    else s
  | .tick ms => { s with db := { s.db with now := s.db.now + ms } }

/-- Nothing has happened yet. -/
def start (suppressions : Suppressions) (email : Emails.EmailRow) (now : Time) : State :=
  Store.init ⟨suppressions, email, [], now, []⟩

/-- One entry on its own: a call that reads the suppression and files it at once. -/
def Entry.apply (t : Suppressions) : Entry → Suppressions
  | .bounce f =>
    let existing := findActiveSuppression toLowerCase t f.lookedAt f.dsn.binding.email.apiKeyId
      f.dsn.binding.recipient
    ((f.upsert toLowerCase (escalateIfRepeat f.kind existing)).exec t).1
  | .inline i => ((i.upsert toLowerCase).exec t).1

end Handler

end BunMail.BounceHandler
