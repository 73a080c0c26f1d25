import BunMail.Emails.Schema
import BunMail.Lib.Run
import BunMail.Lib.Transactions

/-!
# Hard deletes and their tombstones

`deleteEmailsWithTombstones` takes five statements in one transaction: it reads the rows its `WHERE`
matches, reads their attachments, inserts the tombstones, drops the attachment bytes, and deletes
what the same `WHERE` matches by then.  `trashEmail` and `restoreEmail` are single updates.  Here
they run in any order over the tables `emails`, `email_attachments` and `email_tombstones`.
-/

namespace BunMail.Emails.Trash

open Transactions

/-! ## The tables -/

/-- A row of `email_attachments`. -/
structure AttachmentRow where
  id : Text
  emailId : Text
  position : ℕ
  filename : Text
  contentType : Text
  sizeBytes : ℕ
  content : Option (List UInt8)
  deriving DecidableEq

/-- What a tombstone keeps of an attachment. -/
structure TombstoneAttachment where
  filename : Text
  contentType : Text
  size : ℕ
  deriving DecidableEq

/-- A row of `email_tombstones`. -/
structure EmailTombstone where
  id : Text
  apiKeyId : Text
  messageId : Option Text
  fromAddress : Text
  toAddress : Text
  subject : Text
  status : EmailStatus
  sentAt : Option Time
  deletedAt : Option Time
  attachments : Option (List TombstoneAttachment)
  purgedAt : Time
  deriving DecidableEq

/-- The three tables. -/
structure Mailbox where
  emails : Table EmailRow.id
  attachments : List AttachmentRow
  tombstones : Table EmailTombstone.id

/-! ## The statements -/

/-- The `WHERE` of each hard delete. -/
inductive DeleteWhere
  /-- `permanentDeleteEmail`; without a key, `permanentDeleteEmailUnscoped`. -/
  | one (id : Text) (apiKeyId : Option Text)
  /-- `emptyEmailsTrash`; without a key, `emptyEmailsTrashUnscoped`. -/
  | all (apiKeyId : Option Text)
  /-- `runTrashPurge`. -/
  | olderThan (cutoff : Time)
  deriving DecidableEq

/-- `eq(emails.apiKeyId, apiKeyId)`, left out of the unscoped variants. -/
def ownedBy (apiKeyId : Option Text) (row : EmailRow) : Bool :=
  apiKeyId.all (· == row.apiKeyId)

/-- Whether the row matches. -/
def DeleteWhere.selects : DeleteWhere → EmailRow → Bool
  | .one id apiKeyId, row => row.id == id && ownedBy apiKeyId row && row.deletedAt.isSome
  | .all apiKeyId, row => ownedBy apiKeyId row && row.deletedAt.isSome
  | .olderThan cutoff, row => row.deletedAt.any (· < cutoff)

/-- One call: its `WHERE`, and the `now()` of its transaction. -/
structure DeleteCall where
  scope : DeleteWhere
  now : Time
  deriving DecidableEq

/-- The rows the call's `WHERE` matches. -/
def DeleteCall.select (call : DeleteCall) (m : Mailbox) : List EmailRow :=
  m.emails.rows.filter call.scope.selects

/-- `listAttachmentMeta` for one email, in order of position. -/
def listAttachmentMeta (m : Mailbox) (emailId : Text) : List TombstoneAttachment :=
  ((m.attachments.filter (·.emailId == emailId)).insertionSort (·.position ≤ ·.position)).map
    fun a => { filename := a.filename, contentType := a.contentType, size := a.sizeBytes }

/-- The tombstone of a row. -/
def DeleteCall.tombstone (call : DeleteCall) (m : Mailbox) (row : EmailRow) : EmailTombstone :=
  let files := listAttachmentMeta m row.id
  { id := row.id
    apiKeyId := row.apiKeyId
    messageId := row.messageId
    fromAddress := row.fromAddress
    toAddress := row.toAddress
    subject := row.subject
    status := row.status
    sentAt := row.sentAt
    deletedAt := row.deletedAt
    attachments := if files = [] then none else some files
    purgedAt := call.now }

/-- `INSERT` of the tombstones, none of which is in the table. -/
def insertTombstones (ts : List EmailTombstone) (m : Mailbox) : Mailbox :=
  { m with
    tombstones := ts.foldl (fun table r => table.upsert r (fun old => old) fun _ _ => rfl)
      m.tombstones }

/-- `dropAttachmentBytes`. -/
def dropAttachmentBytes (emailIds : List Text) (m : Mailbox) : Mailbox :=
  { m with
    attachments := m.attachments.map fun a =>
      if a.emailId ∈ emailIds then { a with content := none } else a }

/-- `DELETE` of the emails `gone` holds of; their attachments go with them. -/
def deleteEmails (gone : EmailRow → Bool) (m : Mailbox) : Mailbox :=
  { m with
    emails := m.emails.deleteWhere gone
    attachments := m.attachments.filter fun a =>
      m.emails.rows.all fun r => !(gone r && r.id == a.emailId) }

/-- The row after `UPDATE emails SET deleted_at = ... WHERE id = ... AND api_key_id = ...`. -/
def withDeletedAt (id : Text) (apiKeyId : Option Text) (from_ : Option Time → Bool)
    (to_ : Option Time) (r : EmailRow) : EmailRow :=
  if r.id == id && ownedBy apiKeyId r && from_ r.deletedAt then { r with deletedAt := to_ } else r

theorem withDeletedAt_id (id : Text) (apiKeyId : Option Text) (from_ : Option Time → Bool)
    (to_ : Option Time) (r : EmailRow) : (withDeletedAt id apiKeyId from_ to_ r).id = r.id := by
  unfold withDeletedAt
  split_ifs <;> rfl

/-- The update, over the table. -/
def setDeletedAt (id : Text) (apiKeyId : Option Text) (from_ : Option Time → Bool)
    (to_ : Option Time) (m : Mailbox) : Mailbox :=
  { m with
    emails := m.emails.updateAll (withDeletedAt id apiKeyId from_ to_)
      (withDeletedAt_id id apiKeyId from_ to_) }

/-- `trashEmail`; without a key, `trashEmailUnscoped`. -/
def trashEmail (id : Text) (apiKeyId : Option Text) (now : Time) : Mailbox → Mailbox :=
  setDeletedAt id apiKeyId Option.isNone (some now)

/-- `restoreEmail`; without a key, `restoreEmailUnscoped`. -/
def restoreEmail (id : Text) (apiKeyId : Option Text) : Mailbox → Mailbox :=
  setDeletedAt id apiKeyId Option.isSome none

/-! ## The transaction -/

/-- The rows a hard delete locks across statements. -/
inductive RowKey
  | tombstone (id : Text)
  | attachment (id : Text)
  deriving DecidableEq

/-- How far a call of `deleteEmailsWithTombstones` has come. -/
inductive Phase
  /-- The snapshot `SELECT` read `rows`. -/
  | selected (call : DeleteCall) (rows : List EmailRow)
  /-- The attachments are read too: these tombstones are to be inserted. -/
  | listed (call : DeleteCall) (ts : List EmailTombstone)
  | tombstoned (call : DeleteCall) (ts : List EmailTombstone)
  /-- The bytes of `files` are dropped. -/
  | dropped (call : DeleteCall) (ts : List EmailTombstone) (files : List Text)
  /-- The `DELETE` has started: `candidates` matched then. -/
  | deleting (call : DeleteCall) (ts : List EmailTombstone) (files candidates : List Text)
  | returned (deleted : List Text)
  | rolledBack
  deriving DecidableEq

/-- The transaction has not ended. -/
def Phase.running : Phase → Bool
  | .returned _ | .rolledBack => false
  | .selected .. | .listed .. | .tombstoned .. | .dropped .. | .deleting .. => true

/-- The ids a transaction has tombstoned. -/
def idsOf (ts : List EmailTombstone) : List Text := ts.map EmailTombstone.id

/-- The row locks of a phase: a tombstone inserted but not committed keeps others from inserting
its id. -/
def locks : Phase → List (RowKey × Mode)
  | .tombstoned _ ts => (idsOf ts).map fun id => (.tombstone id, .update)
  | .dropped _ ts files | .deleting _ ts files _ =>
    ((idsOf ts).map fun id => (.tombstone id, .update)) ++
      files.map fun id => (.attachment id, .update)
  | .selected .. | .listed .. | .returned _ | .rolledBack => []

/-- What the `DELETE` of the call removes: rows that matched when it started and match still. -/
def DeleteCall.removes (call : DeleteCall) (candidates : List Text) (row : EmailRow) : Bool :=
  decide (row.id ∈ candidates) && call.scope.selects row

/-- The uncommitted writes of a phase, its `DELETE` included once it has started. -/
def writes : Phase → Mailbox → Mailbox
  | .tombstoned _ ts, m => insertTombstones ts m
  | .dropped _ ts _, m => dropAttachmentBytes (idsOf ts) (insertTombstones ts m)
  | .deleting call ts _ candidates, m =>
    deleteEmails (call.removes candidates) (dropAttachmentBytes (idsOf ts) (insertTombstones ts m))
  | .selected .. , m | .listed .. , m | .returned _, m | .rolledBack, m => m

/-- The ids of the attachments of these emails, or only of those with bytes. -/
def filesOf (m : Mailbox) (p : Text → Bool) (withBytes : Bool) : List Text :=
  (m.attachments.filter fun a => p a.emailId && (!withBytes || a.content.isSome)).map
    AttachmentRow.id

/-- The attachments that the `DELETE` takes along. -/
def cascade (m : Mailbox) (call : DeleteCall) (candidates : List Text) : List (RowKey × Mode) :=
  (filesOf m (fun id => m.emails.rows.any fun r => call.removes candidates r && r.id == id)
    false).map fun id => (.attachment id, .update)

/-- The committed tables and the calls so far. -/
abbrev State := Store Mailbox Phase

/-- One statement of one call, or one update. -/
inductive Action
  /-- The transaction `t` begins with the snapshot `SELECT`. -/
  | deleteEmailsWithTombstones (t : ℕ) (call : DeleteCall)
  /-- The transaction `t` goes on. -/
  | next (t : ℕ)
  /-- A statement of `t` fails. -/
  | fail (t : ℕ)
  | trashEmail (id : Text) (apiKeyId : Option Text) (now : Time)
  | restoreEmail (id : Text) (apiKeyId : Option Text)
  deriving DecidableEq

/-- The next statement of the transaction `t`, in the phase `p`. -/
def nextStatement (s : State) (t : ℕ) : Phase → State
  | .selected call rows => s.put t (.listed call (rows.map (call.tombstone s.db)))
  | .listed call ts =>
    if ts.any fun r => decide (r.id ∈ s.db.tombstones.keys) then s.put t .rolledBack
    else s.enter locks t (.tombstoned call ts)
  | .tombstoned call ts =>
    s.enter locks t (.dropped call ts (filesOf s.db (fun id => decide (id ∈ idsOf ts)) true))
  | .dropped call ts files => s.put t (.deleting call ts files ((call.select s.db).map (·.id)))
  | .deleting call ts files candidates =>
    if s.grants locks t (cascade s.db call candidates) then
      s.commit writes t (.deleting call ts files candidates)
        (.returned ((s.db.emails.rows.filter (call.removes candidates)).map (·.id)))
    else s
  | .returned _ | .rolledBack => s

/-- One action. -/
def step (s : State) : Action → State
  | .deleteEmailsWithTombstones t call =>
    match s.phase? t with
    | some _ => s
    | none =>
      s.put t (if call.select s.db = [] then .returned [] else .selected call (call.select s.db))
  | .next t => (s.phase? t).elim s (nextStatement s t)
  | .fail t => if (s.phase? t).any Phase.running then s.put t .rolledBack else s
  | .trashEmail id apiKeyId now => { s with db := trashEmail id apiKeyId now s.db }
  | .restoreEmail id apiKeyId => { s with db := restoreEmail id apiKeyId s.db }

end BunMail.Emails.Trash
