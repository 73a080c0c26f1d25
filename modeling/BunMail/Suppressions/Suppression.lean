import BunMail.Lib.Run
import BunMail.Lib.Table
import BunMail.Lib.Text

/-!
# The suppression list

The table `suppressions` has one row for each API key and address.  Every write is one
`INSERT ... ON CONFLICT (api_key_id, email) DO UPDATE ... WHERE` statement with its own `SET`
clause and its own guard on the row on file.  `source_email_id` references the emails table,
whose hard deletes set it to null.
-/

namespace BunMail.SuppressionList

/-- `SUPPRESSION_REASONS`. -/
inductive SuppressionReason
  | bounce | complaint | manual | unsubscribe
  deriving DecidableEq, Repr

/-- `BOUNCE_TYPES`. -/
inductive BounceType
  | hard | soft
  deriving DecidableEq, Repr

/-- A row of `suppressions`. -/
structure Suppression where
  id : Text
  apiKeyId : Text
  email : Text
  reason : SuppressionReason
  bounceType : Option BounceType
  diagnosticCode : Option Text
  sourceEmailId : Option Text
  expiresAt : Option Time
  createdAt : Time
  deriving DecidableEq

/-- The columns of `suppressions_api_key_email_unique`. -/
def Suppression.key (r : Suppression) : Text × Text := (r.apiKeyId, r.email)

/-- The table `suppressions`. -/
abbrev Suppressions := Table Suppression.key

structure CreateSuppressionInput where
  email : Text
  reason : SuppressionReason
  expiresAt : Option Time
  deriving DecidableEq

structure AddFromBounceInput where
  email : Text
  bounceType : BounceType
  diagnosticCode : Option Text
  sourceEmailId : Option Text
  expiresAt : Option Time
  deriving DecidableEq

structure AddFromUnsubscribeInput where
  apiKeyId : Text
  email : Text
  emailId : Text
  deriving DecidableEq

structure AddFromComplaintInput where
  apiKeyId : Text
  email : Text
  emailId : Text
  deriving DecidableEq

/-- How long a soft-bounce suppression lasts: 24 h. -/
def SOFT_BOUNCE_WINDOW_MS : ℕ := 24 * 60 * 60 * 1000

section Service

variable (toLowerCase : Text → Text)

/-- Trimmed and lowercased, as every address is stored. -/
def normaliseEmail (email : Text) : Text := toLowerCase (Text.trim email)

/-! ## The send gate -/

/-- The key's own row for the address, permanent or not yet expired. -/
def findActiveSuppression (t : Suppressions) (now : Time) (apiKeyId email : Text) :
    Option Suppression :=
  (t.find? (apiKeyId, normaliseEmail toLowerCase email)).filter fun r =>
    match r.expiresAt with
    | none => true
    | some at_ => now < at_

/-- A permanent hard bounce or complaint an automatic path wrote: a manual row has neither a
bounce type nor a source email. -/
def sharedHardSuppressionWhere (target : Text) (r : Suppression) : Bool :=
  r.email = target && r.expiresAt.isNone && (r.reason = .bounce || r.reason = .complaint) &&
    ((r.reason = .bounce && r.bounceType = some .hard) ||
      (r.reason = .complaint && r.sourceEmailId.isSome))

def hasSharedHardSuppression (t : Suppressions) (target : Text) : Bool :=
  t.rows.any (sharedHardSuppressionWhere target)

/-- Why the send gate refused an address. -/
inductive SuppressionMatch
  | own (suppression : Suppression)
  | shared
  deriving DecidableEq

/-- The send gate; `sharedHard` is `SUPPRESSIONS_SHARED_HARD`. -/
def isSuppressed (t : Suppressions) (now : Time) (sharedHard : Bool) (apiKeyId email : Text) :
    Option SuppressionMatch :=
  match findActiveSuppression toLowerCase t now apiKeyId email with
  | some own => some (.own own)
  | none =>
    if !sharedHard then none
    else if hasSharedHardSuppression t (normaliseEmail toLowerCase email) then some .shared
    else none

/-! ## The upserts -/

/-- One `INSERT ... ON CONFLICT (api_key_id, email) DO UPDATE SET ... WHERE ...`. -/
structure Upsert where
  row : Suppression
  set : Suppression → Suppression
  setWhere : Suppression → Bool
  key_set : ∀ r, (set r).key = r.key

/-- Runs the statement; the row comes back when it was written. -/
def Upsert.exec (u : Upsert) (t : Suppressions) : Suppressions × Option Suppression :=
  t.upsertWhere u.row u.set u.setWhere fun r _ => u.key_set r

/-- `createSuppression` rewrites everything but a permanent complaint, clearing the bounce
columns. -/
def createSuppressionUpsert (apiKeyId : Text) (input : CreateSuppressionInput) (id : Text)
    (now : Time) : Upsert where
  row :=
    { id, apiKeyId, email := normaliseEmail toLowerCase input.email, reason := input.reason,
      bounceType := none, diagnosticCode := none, sourceEmailId := none,
      expiresAt := input.expiresAt, createdAt := now }
  set r := { r with
    reason := input.reason, expiresAt := input.expiresAt, bounceType := none,
    diagnosticCode := none, sourceEmailId := none }
  setWhere r := r.expiresAt.isSome || r.reason ≠ .complaint
  key_set _ := rfl

/-- `addFromBounce` rewrites only a temporary row. -/
def addFromBounceUpsert (apiKeyId : Text) (input : AddFromBounceInput) (id : Text)
    (now : Time) : Upsert where
  row :=
    { id, apiKeyId, email := normaliseEmail toLowerCase input.email, reason := .bounce,
      bounceType := some input.bounceType, diagnosticCode := input.diagnosticCode,
      sourceEmailId := input.sourceEmailId, expiresAt := input.expiresAt, createdAt := now }
  set r := { r with
    reason := .bounce, bounceType := some input.bounceType,
    diagnosticCode := input.diagnosticCode, sourceEmailId := input.sourceEmailId,
    expiresAt := input.expiresAt }
  setWhere r := r.expiresAt.isSome
  key_set _ := rfl

/-- `addFromUnsubscribe` replaces only a temporary row. -/
def addFromUnsubscribeUpsert (input : AddFromUnsubscribeInput) (id : Text) (now : Time) :
    Upsert where
  row :=
    { id, apiKeyId := input.apiKeyId, email := normaliseEmail toLowerCase input.email,
      reason := .unsubscribe, bounceType := none, diagnosticCode := none,
      sourceEmailId := some input.emailId, expiresAt := none, createdAt := now }
  set r := { r with
    reason := .unsubscribe, bounceType := none, diagnosticCode := none,
    sourceEmailId := some input.emailId, expiresAt := none }
  setWhere r := r.expiresAt.isSome
  key_set _ := rfl

/-- `addFromComplaint` replaces everything but a permanent complaint. -/
def addFromComplaintUpsert (input : AddFromComplaintInput) (id : Text) (now : Time) :
    Upsert where
  row :=
    { id, apiKeyId := input.apiKeyId, email := normaliseEmail toLowerCase input.email,
      reason := .complaint, bounceType := none, diagnosticCode := none,
      sourceEmailId := some input.emailId, expiresAt := none, createdAt := now }
  set r := { r with
    reason := .complaint, bounceType := none, diagnosticCode := none,
    sourceEmailId := some input.emailId, expiresAt := none }
  setWhere r := r.expiresAt.isSome || r.reason ≠ .complaint
  key_set _ := rfl

end Service

/-! ## The database -/

/-- The email ids that exist and the suppressions that may reference them. -/
structure Db where
  emails : List Text
  suppressions : Suppressions

/-- `sourceEmailId` names an existing email or none. -/
def Db.references (db : Db) (r : Suppression) : Bool :=
  r.sourceEmailId.all (· ∈ db.emails)

/-- Runs a statement under the foreign key: a written row that references no email is an error,
and nothing is written. -/
def Db.upsert (db : Db) (u : Upsert) : Except String (Db × Option Suppression) :=
  let (t, row) := u.exec db.suppressions
  if row.all db.references then .ok ({ db with suppressions := t }, row)
  else .error "violates foreign key constraint"

section Service

variable (toLowerCase : Text → Text)

/-- What a bounce did to the suppression list. -/
structure BounceSuppressionResult where
  applied : Bool
  suppression : Option Suppression
  deriving DecidableEq

def addFromBounce (db : Db) (apiKeyId : Text) (input : AddFromBounceInput) (id : Text)
    (now : Time) : Except String (Db × BounceSuppressionResult) := do
  let (db', row) ← db.upsert (addFromBounceUpsert toLowerCase apiKeyId input id now)
  let target := normaliseEmail toLowerCase input.email
  pure (db', { applied := row.isSome, suppression := row <|> db'.suppressions.find? (apiKeyId, target) })

def addFromUnsubscribe (db : Db) (input : AddFromUnsubscribeInput) (id : Text) (now : Time) :
    Except String (Db × Option Suppression) :=
  db.upsert (addFromUnsubscribeUpsert toLowerCase input id now)

def addFromComplaint (db : Db) (input : AddFromComplaintInput) (id : Text) (now : Time) :
    Except String (Db × Option Suppression) :=
  db.upsert (addFromComplaintUpsert toLowerCase input id now)

/-- The manual addition: the written row, or the permanent complaint left in place.  A second
attempt, with its own id, runs only when that complaint is gone by the time it is read. -/
def createSuppression (db : Db) (apiKeyId : Text) (input : CreateSuppressionInput)
    (id id' : Text) (now : Time) : Except String (Db × Suppression) := do
  let key := (apiKeyId, normaliseEmail toLowerCase input.email)
  let (db₁, row) ← db.upsert (createSuppressionUpsert toLowerCase apiKeyId input id now)
  match row <|> db₁.suppressions.find? key with
  | some r => pure (db₁, r)
  | none =>
    let (db₂, row) ← db₁.upsert (createSuppressionUpsert toLowerCase apiKeyId input id' now)
    match row <|> db₂.suppressions.find? key with
    | some r => pure (db₂, r)
    | none => throw "Suppression could not be written"

end Service

def deleteSuppression (db : Db) (id apiKeyId : Text) : Db :=
  { db with suppressions := db.suppressions.deleteWhere fun r => r.id = id && r.apiKeyId = apiKeyId }

def deleteSuppressionByIdUnscoped (db : Db) (id : Text) : Db :=
  { db with suppressions := db.suppressions.deleteWhere fun r => r.id = id }

/-- A row after the emails `ids` were hard-deleted: `ON DELETE SET NULL`. -/
def Suppression.clearSource (ids : List Text) (r : Suppression) : Suppression :=
  if r.sourceEmailId.any (· ∈ ids) then { r with sourceEmailId := none } else r

theorem Suppression.key_clearSource (ids : List Text) (r : Suppression) :
    (r.clearSource ids).key = r.key := by
  unfold clearSource
  split_ifs <;> rfl

/-- The `DELETE` of `deleteEmailsWithTombstones` for the emails `ids`. -/
def hardDeleteEmails (db : Db) (ids : List Text) : Db where
  emails := db.emails.filter (· ∉ ids)
  suppressions := db.suppressions.updateAll (Suppression.clearSource ids) (Suppression.key_clearSource ids)

/-! ## Steps -/

/-- A committed operation. -/
inductive Op
  | addFromBounce (apiKeyId : Text) (input : AddFromBounceInput) (id : Text) (now : Time)
  | addFromUnsubscribe (input : AddFromUnsubscribeInput) (id : Text) (now : Time)
  | addFromComplaint (input : AddFromComplaintInput) (id : Text) (now : Time)
  | createSuppression (apiKeyId : Text) (input : CreateSuppressionInput) (id id' : Text) (now : Time)
  | deleteSuppression (id apiKeyId : Text)
  | deleteSuppressionByIdUnscoped (id : Text)
  | hardDeleteEmails (ids : List Text)
  deriving DecidableEq

/-- The operations no tenant asks for. -/
def Op.automatic : Op → Bool
  | .addFromBounce .. | .addFromUnsubscribe .. | .addFromComplaint .. => true
  | _ => false

/-- A failed operation leaves the database as it was. -/
def orUnchanged {α : Type} (db : Db) : Except String (Db × α) → Db
  | .ok (db', _) => db'
  | .error _ => db

def step (toLowerCase : Text → Text) (db : Db) : Op → Db
  | .addFromBounce apiKeyId input id now =>
    orUnchanged db (addFromBounce toLowerCase db apiKeyId input id now)
  | .addFromUnsubscribe input id now => orUnchanged db (addFromUnsubscribe toLowerCase db input id now)
  | .addFromComplaint input id now => orUnchanged db (addFromComplaint toLowerCase db input id now)
  | .createSuppression apiKeyId input id id' now =>
    orUnchanged db (createSuppression toLowerCase db apiKeyId input id id' now)
  | .deleteSuppression id apiKeyId => deleteSuppression db id apiKeyId
  | .deleteSuppressionByIdUnscoped id => deleteSuppressionByIdUnscoped db id
  | .hardDeleteEmails ids => hardDeleteEmails db ids

/-! ## What a step does to a row -/

/-- The statement an operation runs. -/
def Op.upsert? (toLowerCase : Text → Text) : Op → Option Upsert
  | .addFromBounce apiKeyId input id now => some (addFromBounceUpsert toLowerCase apiKeyId input id now)
  | .addFromUnsubscribe input id now => some (addFromUnsubscribeUpsert toLowerCase input id now)
  | .addFromComplaint input id now => some (addFromComplaintUpsert toLowerCase input id now)
  | .createSuppression apiKeyId input id _ now =>
    some (createSuppressionUpsert toLowerCase apiKeyId input id now)
  | _ => none

/-- The row on file for an API key and address, expired or not. -/
def Db.findRow (db : Db) (k : Text × Text) : Option Suppression := db.suppressions.find? k

theorem Upsert.exec_findRow (u : Upsert) (t : Suppressions) :
    (u.exec t).1.find? u.row.key =
      some ((t.find? u.row.key).elim u.row fun r => if u.setWhere r then u.set r else r) :=
  Table.find?_upsertWhere_self

theorem Upsert.exec_findRow_ne (u : Upsert) (t : Suppressions) {k : Text × Text}
    (h : k ≠ u.row.key) : (u.exec t).1.find? k = t.find? k := Table.find?_upsertWhere_ne h

theorem Db.upsert_ok {db : Db} {u : Upsert} {p : Db × Option Suppression}
    (h : db.upsert u = .ok p) :
    p = ({ db with suppressions := (u.exec db.suppressions).1 }, (u.exec db.suppressions).2) := by
  unfold Db.upsert at h
  dsimp only at h
  split_ifs at h
  exact (Except.ok.inj h).symm

theorem findRow_of_upsert_ok {db : Db} {u : Upsert} {p : Db × Option Suppression}
    (h : db.upsert u = .ok p) :
    p.1.findRow u.row.key =
      some ((db.findRow u.row.key).elim u.row fun r => if u.setWhere r then u.set r else r) := by
  rw [Db.upsert_ok h]
  exact u.exec_findRow db.suppressions

/-- The database after a statement, whether or not it ran into the foreign key. -/
def Db.afterUpsert (db : Db) (u : Upsert) : Db :=
  if (u.exec db.suppressions).2.all db.references then
    { db with suppressions := (u.exec db.suppressions).1 }
  else db

theorem orUnchanged_upsert (db : Db) (u : Upsert) :
    orUnchanged db (db.upsert u) = db.afterUpsert u := by
  unfold Db.upsert Db.afterUpsert
  dsimp only
  split_ifs <;> rfl

section Steps

variable {toLowerCase : Text → Text}

theorem orUnchanged_addFromBounce (db : Db) (apiKeyId : Text) (input : AddFromBounceInput)
    (id : Text) (now : Time) :
    orUnchanged db (addFromBounce toLowerCase db apiKeyId input id now) =
      orUnchanged db (db.upsert (addFromBounceUpsert toLowerCase apiKeyId input id now)) := by
  unfold addFromBounce
  cases db.upsert (addFromBounceUpsert toLowerCase apiKeyId input id now) with
  | error e => rfl
  | ok p => rfl

/-- The first attempt of a manual addition finds its row, so the second never runs here. -/
theorem orUnchanged_createSuppression (db : Db) (apiKeyId : Text) (input : CreateSuppressionInput)
    (id id' : Text) (now : Time) :
    orUnchanged db (createSuppression toLowerCase db apiKeyId input id id' now) =
      orUnchanged db (db.upsert (createSuppressionUpsert toLowerCase apiKeyId input id now)) := by
  unfold createSuppression
  cases h : db.upsert (createSuppressionUpsert toLowerCase apiKeyId input id now) with
  | error e => rfl
  | ok p =>
    have hrow := Upsert.exec_findRow (createSuppressionUpsert toLowerCase apiKeyId input id now)
      db.suppressions
    obtain ⟨r, hr⟩ : ∃ r, p.1.suppressions.find?
        (apiKeyId, normaliseEmail toLowerCase input.email) = some r := by
      rw [Db.upsert_ok h]
      exact ⟨_, hrow⟩
    obtain ⟨db', _ | row⟩ := p
    · simp only [bind, Except.bind]
      rw [show (none <|> db'.suppressions.find? (apiKeyId, normaliseEmail toLowerCase input.email))
        = some r from hr]
      rfl
    · rfl

/-- **Statements.** An operation that runs the statement `u` does what `u` does. -/
theorem step_upsert (db : Db) {op : Op} {u : Upsert} (h : op.upsert? toLowerCase = some u) :
    step toLowerCase db op = db.afterUpsert u := by
  cases op with
  | addFromBounce apiKeyId input id now =>
    cases h
    rw [step, orUnchanged_addFromBounce, orUnchanged_upsert]
  | addFromUnsubscribe input id now => cases h; exact orUnchanged_upsert db _
  | addFromComplaint input id now => cases h; exact orUnchanged_upsert db _
  | createSuppression apiKeyId input id id' now =>
    cases h
    rw [step, orUnchanged_createSuppression, orUnchanged_upsert]
  | deleteSuppression | deleteSuppressionByIdUnscoped | hardDeleteEmails => cases h

theorem findRow_afterUpsert_ne (db : Db) (u : Upsert) {k : Text × Text} (h : k ≠ u.row.key) :
    (db.afterUpsert u).findRow k = db.findRow k := by
  unfold Db.afterUpsert
  split_ifs
  · exact u.exec_findRow_ne db.suppressions h
  · rfl

/-- No row on file: the insert goes through when it references an email that exists. -/
theorem findRow_afterUpsert_none {db : Db} {u : Upsert} (h : db.findRow u.row.key = none) :
    (db.afterUpsert u).findRow u.row.key = if db.references u.row then some u.row else none := by
  have hret : (u.exec db.suppressions).2 = some u.row := by
    unfold Upsert.exec Table.upsertWhere
    rw [show db.suppressions.find? u.row.key = none from h]
  have hrow := u.exec_findRow db.suppressions
  rw [show db.suppressions.find? u.row.key = none from h] at hrow
  unfold Db.afterUpsert
  rw [hret, Option.all_some]
  split_ifs
  · exact hrow
  · exact h

/-- A row on file is rewritten when the guard lets it through and the new values reference an
email that exists. -/
theorem findRow_afterUpsert_some {db : Db} {u : Upsert} {r : Suppression}
    (h : db.findRow u.row.key = some r) :
    (db.afterUpsert u).findRow u.row.key =
      some (if u.setWhere r && db.references (u.set r) then u.set r else r) := by
  have hret : (u.exec db.suppressions).2 = if u.setWhere r then some (u.set r) else none := by
    unfold Upsert.exec Table.upsertWhere
    rw [show db.suppressions.find? u.row.key = some r from h]
  have hrow := u.exec_findRow db.suppressions
  rw [show db.suppressions.find? u.row.key = some r from h, Option.elim_some] at hrow
  unfold Db.afterUpsert
  rw [hret]
  by_cases hw : u.setWhere r = true
  · rw [if_pos hw] at hrow ⊢
    rw [Option.all_some, hw, Bool.true_and]
    split_ifs
    · exact hrow
    · exact h
  · rw [if_neg hw] at hrow ⊢
    rw [Bool.not_eq_true] at hw
    rw [Option.all_none, if_pos rfl, hw, Bool.false_and]
    exact hrow

/-- What a statement does to the row of one key: nothing, an insert, or the rewrite of a row its
guard lets through, with a source email that exists. -/
theorem findRow_step (db : Db) {op : Op} {u : Upsert} (h : op.upsert? toLowerCase = some u)
    (k : Text × Text) :
    (step toLowerCase db op).findRow k = db.findRow k ∨
      u.row.key = k ∧
        (db.findRow k = none ∧ (step toLowerCase db op).findRow k = some u.row ∨
          ∃ r, db.findRow k = some r ∧ u.setWhere r = true ∧ db.references (u.set r) = true ∧
            (step toLowerCase db op).findRow k = some (u.set r)) := by
  rw [step_upsert db h]
  by_cases hk : k = u.row.key
  · subst hk
    cases hf : db.findRow u.row.key with
    | none =>
      rw [findRow_afterUpsert_none hf]
      split_ifs
      · exact .inr ⟨rfl, .inl ⟨rfl, rfl⟩⟩
      · exact .inl rfl
    | some r =>
      rw [findRow_afterUpsert_some hf]
      split_ifs with hw
      · rw [Bool.and_eq_true] at hw
        exact .inr ⟨rfl, .inr ⟨r, rfl, hw.1, hw.2, rfl⟩⟩
      · exact .inl rfl
  · exact .inl (findRow_afterUpsert_ne db u hk)

end Steps

end BunMail.SuppressionList
