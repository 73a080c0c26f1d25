import BunMail.Lib.Run
import BunMail.Lib.Transactions
import BunMail.Users.Schema
import BunMail.Users.Session

/-!
# Replacing a password

`changePassword` and `completePasswordReset` against logins, rotations and elevations, statement by
statement, over the tables `user_credentials` and `sessions`.

A login verifies a password outside any transaction and inserts its session later: the foreign key
holds the credential in key share mode, and fails when it is gone.  A `DELETE` finds its rows when
it starts and waits for each of them; that of a credential also deletes, by cascade, the sessions
bound to it, which it finds once the credential is locked.
-/

namespace BunMail.Users.Passwords

open Transactions

/-! ## The tables -/

/-- A committed replacement. -/
structure Replaced where
  userId : Text
  /-- The credential that `changePassword` verified. -/
  verified : Option Text
  /-- The deleted credentials. -/
  credentials : List Text
  /-- The account's sessions committed when the `DELETE` of its sessions started. -/
  before : List Text
  /-- The new credential and session. -/
  credentialId : Text
  sessionId : Text
  deriving DecidableEq

/-- The tables, and the replacements so far. -/
structure Tables where
  credentials : Table CredentialRow.id
  sessions : Table SessionRow.id
  log : List Replaced

/-- `passwordCredentialOf`. -/
def passwordCredentialOf (db : Tables) (userId : Text) : Option CredentialRow :=
  db.credentials.rows.find? fun c => c.userId == userId && c.type == .password

/-- `INSERT INTO sessions`. -/
def insertSession (row : SessionRow) (sessions : Table SessionRow.id) : Table SessionRow.id :=
  sessions.insert row

/-- `INSERT INTO user_credentials`. -/
def insertCredential (row : CredentialRow) (credentials : Table CredentialRow.id) :
    Table CredentialRow.id :=
  credentials.insert row

/-! ## Rotations and elevations -/

/-- An `UPDATE` of one session, presented with a token. -/
inductive SessionUpdate
  | rotateSession (sessionId presentedHash hash : Text)
  | elevatePendingSession (sessionId presentedHash hash : Text)
  deriving DecidableEq

/-- The session it is about. -/
def SessionUpdate.sessionId : SessionUpdate → Text
  | .rotateSession sessionId _ _ | .elevatePendingSession sessionId _ _ => sessionId

/-- Its `WHERE`. -/
def SessionUpdate.admits (r : SessionRow) (now : Time) : SessionUpdate → Bool
  | .rotateSession _ presentedHash _ => r.rotatable now presentedHash
  | .elevatePendingSession _ presentedHash _ => r.pendingFor now presentedHash

/-- Its `SET`. -/
def SessionUpdate.set (r : SessionRow) (now : Time) : SessionUpdate → SessionRow
  | .rotateSession _ _ hash => r.rotated now hash
  | .elevatePendingSession _ _ hash => r.elevated now hash

/-- The row it rewrites. -/
def SessionUpdate.rewrite (u : SessionUpdate) (now : Time) (r : SessionRow) : SessionRow :=
  if r.id = u.sessionId then u.set r now else r

theorem SessionUpdate.set_id (u : SessionUpdate) (now : Time) (r : SessionRow) :
    (u.set r now).id = r.id := by
  cases u <;> rfl

theorem SessionUpdate.rewrite_id (u : SessionUpdate) (now : Time) (r : SessionRow) :
    (u.rewrite now r).id = r.id := by
  unfold rewrite
  split_ifs
  · exact u.set_id now r
  · rfl

/-! ## Replacements -/

/-- What a replacement mints. -/
structure MintedIds where
  credentialId : Text
  secretHash : Text
  sessionId : Text
  tokenHash : Text
  deriving DecidableEq

/-- The `WHERE` of a `DELETE FROM user_credentials`. -/
inductive Selection
  | byId (id : Text)
  | ofTypes (userId : Text) (types : List CredentialType)
  deriving DecidableEq

/-- It selects the row. -/
def Selection.selects : Selection → CredentialRow → Bool
  | .byId id, c => c.id == id
  | .ofTypes userId types, c => c.userId == userId && types.any (· == c.type)

/-- The statements of a replacement. -/
inductive Statement
  /-- `changePassword` reads the account, `completePasswordReset` spends its token. -/
  | check
  | lockAccountRow
  /-- The compare and swap of `changePassword`. -/
  | lockCredential (id verifiedHash : Text)
  | deleteCredentials (which : Selection)
  /-- The `DELETE` has found its credentials, and waits for them. -/
  | lockCredentials (ids : List Text)
  /-- The cascade to the sessions bound to the deleted credentials. -/
  | cascade
  | revokeAllUserSessions
  /-- The `DELETE` has found its sessions, and waits for them. -/
  | lockSessions (ids : List Text)
  | insertCredential
  | createSession
  deriving DecidableEq

/-- A replacement under the owner lock: what it has locked and written so far. -/
structure Progress where
  userId : Text
  assurance : SessionAssurance
  ids : MintedIds
  todo : List Statement
  accountLocked : Bool := false
  verified : Option Text := none
  credentials : List Text := []
  sessions : List Text := []
  before : List Text := []
  newCredential : Option CredentialRow := none
  newSession : Option SessionRow := none
  deriving DecidableEq

/-- The new `password` credential. -/
def Progress.credentialRow (p : Progress) : CredentialRow where
  id := p.ids.credentialId
  userId := p.userId
  type := .password
  secretHash := some p.ids.secretHash

/-- The session the replacement opens. -/
def Progress.sessionInput (p : Progress) : NewSession where
  id := p.ids.sessionId
  tokenHash := p.ids.tokenHash
  userId := p.userId
  assurance := p.assurance
  credentialId := some p.ids.credentialId

/-- What it has replaced. -/
def Progress.entry (p : Progress) : Replaced where
  userId := p.userId
  verified := p.verified
  credentials := p.credentials
  before := p.before
  credentialId := p.ids.credentialId
  sessionId := p.ids.sessionId

/-- `changePassword`, from the owner lock on. -/
def changePassword (userId : Text) (mfa : Bool) (ids : MintedIds) (credentialId verifiedHash : Text) :
    Progress where
  userId := userId
  assurance := if mfa then .mfa else .password
  ids := ids
  todo := [.check, .lockCredential credentialId verifiedHash, .revokeAllUserSessions,
    .deleteCredentials (.byId credentialId), .insertCredential, .createSession]

/-- `completePasswordReset`, from the owner lock on. -/
def completePasswordReset (userId : Text) (ids : MintedIds) : Progress where
  userId := userId
  assurance := .password
  ids := ids
  todo := [.check, .lockAccountRow, .deleteCredentials (.ofTypes userId [.password]),
    .insertCredential, .deleteCredentials (.ofTypes userId [.totp, .passkey]),
    .deleteCredentials (.ofTypes userId [.oauth]), .revokeAllUserSessions, .createSession]

/-! ## The calls -/

/-- What a call locks. -/
inductive RowKey
  | ownerLock
  | user (id : Text)
  | credential (id : Text)
  | session (id : Text)
  deriving DecidableEq

/-- How far a call has come. -/
inductive Phase
  /-- `verifyPasswordLogin` has read the credential. -/
  | loginVerified (input : NewSession) (credentialId : Text)
  | loginInserted (row : SessionRow) (credentialId : Text)
  | requested (u : SessionUpdate)
  | updated (u : SessionUpdate) (now : Time)
  /-- `changePassword` has read the credential it verifies. -/
  | changeVerified (userId : Text) (mfa : Bool) (ids : MintedIds) (credentialId verifiedHash : Text)
  /-- `completePasswordReset` has found its token live. -/
  | resetFound (userId : Text) (ids : MintedIds)
  | running (p : Progress)
  /-- Refused, rolled back or committed. -/
  | ended
  deriving DecidableEq

/-- What a replacement has locked, all of it until it ends. -/
def Progress.held (p : Progress) : List RowKey :=
  .ownerLock :: (if p.accountLocked then [.user p.userId] else []) ++
    (p.verified.toList ++ p.credentials).map RowKey.credential ++ p.sessions.map RowKey.session

/-- The locks of a phase. -/
def locks : Phase → List (RowKey × Mode)
  | .loginInserted row credentialId =>
    [(.user row.userId, .keyShare), (.credential credentialId, .keyShare)]
  | .updated u _ => [(.session u.sessionId, .update)]
  | .running p => p.held.map fun k => (k, .update)
  | .loginVerified .. | .requested _ | .changeVerified .. | .resetFound .. | .ended => []

/-- What a replacement commits. -/
def Progress.write (p : Progress) (db : Tables) : Tables where
  credentials :=
    let kept := db.credentials.deleteWhere fun c => p.credentials.contains c.id
    p.newCredential.elim kept fun row => insertCredential row kept
  sessions :=
    let kept := db.sessions.deleteWhere fun r => p.sessions.contains r.id
    p.newSession.elim kept fun row => insertSession row kept
  log := db.log ++ [p.entry]

/-- The uncommitted writes of a phase. -/
def writes : Phase → Tables → Tables
  | .loginInserted row _ => fun db => { db with sessions := insertSession row db.sessions }
  | .updated u now => fun db =>
    { db with sessions := db.sessions.updateAll (u.rewrite now) (u.rewrite_id now) }
  | .running p => p.write
  | .loginVerified .. | .requested _ | .changeVerified .. | .resetFound .. | .ended => id

/-- The calls. -/
inductive Call
  /-- A login of the account; the credential of `input` is the one it verifies. -/
  | login (input : NewSession)
  | update (u : SessionUpdate)
  | changePassword (userId : Text) (mfa : Bool) (ids : MintedIds)
  | completePasswordReset (userId : Text) (ids : MintedIds)
  deriving DecidableEq

/-- The ids a call mints. -/
def Call.ids : Call → List Text
  | .login input => [input.id]
  | .update _ => []
  | .changePassword _ _ ids | .completePasswordReset _ ids => [ids.credentialId, ids.sessionId]

/-- The committed tables, the calls so far, and the ids that are taken. -/
structure State extends Store Tables Phase where
  minted : List Text

/-- A call that starts, one statement of a call at some time, or its failure. -/
inductive Action
  | start (t : ℕ) (call : Call)
  /-- The call `t` goes on; `ok` answers what these tables do not: the password, the reset link, the
  second factor, the account's deactivation. -/
  | next (t : ℕ) (ok : Bool) (now : Time)
  /-- A statement of `t` fails, or a deadlock ends it. -/
  | fail (t : ℕ)
  deriving DecidableEq

section Statements

variable (s : Store Tables Phase) (t : ℕ)

/-- The next statement of a replacement. -/
def execute (ok : Bool) (now : Time) (p : Progress) : Store Tables Phase :=
  match p.todo with
  | [] => s.commit writes t (.running p) .ended
  | .check :: rest => s.put t (if ok then .running { p with todo := rest } else .ended)
  | .lockAccountRow :: rest =>
    s.enter locks t (.running { p with accountLocked := true, todo := rest })
  | .lockCredential id verifiedHash :: rest =>
    if (s.db.credentials.find? id).any fun c => c.userId == p.userId && c.type == .password &&
      c.secretHash == some verifiedHash then
      s.enter locks t (.running { p with verified := some id, todo := rest })
    else s.put t .ended
  | .deleteCredentials which :: rest =>
    s.put t (.running { p with
      todo := .lockCredentials ((s.db.credentials.rows.filter fun c =>
        which.selects c && !p.credentials.contains c.id).map (·.id)) :: rest })
  | .lockCredentials ids :: rest =>
    s.enter locks t (.running { p with
      credentials := p.credentials ++ ids.filter s.db.credentials.keys.contains
      todo := .cascade :: rest })
  | .cascade :: rest =>
    s.put t (.running { p with
      todo := .lockSessions ((s.db.sessions.rows.filter fun r =>
        r.credentialId.any p.credentials.contains).map (·.id)) :: rest })
  | .revokeAllUserSessions :: rest =>
    let found := (s.db.sessions.rows.filter (·.userId == p.userId)).map (·.id)
    s.put t (.running { p with before := found, todo := .lockSessions found :: rest })
  | .lockSessions ids :: rest =>
    s.enter locks t (.running { p with sessions := p.sessions ++ ids, todo := rest })
  | .insertCredential :: rest =>
    if s.db.credentials.rows.any fun c =>
      !p.credentials.contains c.id && c.clashes p.credentialRow then s.put t .ended
    else s.put t (.running { p with newCredential := some p.credentialRow, todo := rest })
  | .createSession :: rest =>
    s.put t (.running { p with newSession := some (p.sessionInput.row now), todo := rest })

/-- The next statement of the call `t`. -/
def nextStatement (ok : Bool) (now : Time) : Phase → Store Tables Phase
  | .loginVerified input credentialId =>
    if ok && s.db.credentials.keys.contains credentialId then
      s.enter locks t
        (.loginInserted ({ input with credentialId := some credentialId }.row now) credentialId)
    else s.put t .ended
  | .loginInserted row credentialId => s.commit writes t (.loginInserted row credentialId) .ended
  | .requested u =>
    if ok && (s.db.sessions.find? u.sessionId).any (fun r => u.admits r now) then
      s.enter locks t (.updated u now)
    else s.put t .ended
  | .updated u now => s.commit writes t (.updated u now) .ended
  | .changeVerified userId mfa ids credentialId verifiedHash =>
    if ok then s.enter locks t (.running (changePassword userId mfa ids credentialId verifiedHash))
    else s.put t .ended
  | .resetFound userId ids =>
    if ok then s.enter locks t (.running (completePasswordReset userId ids)) else s.put t .ended
  | .running p => execute s t ok now p
  | .ended => s

/-- The first statement of a call. -/
def firstPhase (db : Tables) : Call → Phase
  | .login input =>
    (passwordCredentialOf db input.userId).elim .ended fun c => .loginVerified input c.id
  | .update u => .requested u
  | .changePassword userId mfa ids =>
    (passwordCredentialOf db userId).elim .ended fun c =>
      c.secretHash.elim .ended (.changeVerified userId mfa ids c.id)
  | .completePasswordReset userId ids => .resetFound userId ids

end Statements

/-- One action.  `generateId` repeats no id: a call with a taken one is none. -/
def step (s : State) : Action → State
  | .start t call =>
    if (s.phase? t).isSome || call.ids.any s.minted.contains then s
    else { s.put t (firstPhase s.db call) with minted := call.ids ++ s.minted }
  | .next t ok now =>
    { s with toStore := (s.phase? t).elim s.toStore (nextStatement s.toStore t ok now) }
  | .fail t => { s with toStore := if (s.phase? t).isSome then s.put t .ended else s.toStore }

/-- Committed tables to start with: the foreign key of `sessions` holds. -/
structure Seed where
  credentials : Table CredentialRow.id
  sessions : Table SessionRow.id
  bound : ∀ r ∈ sessions.rows, ∀ c, r.credentialId = some c → c ∈ credentials.keys

/-- Nothing runs, and nothing was replaced yet. -/
def init (seed : Seed) : State where
  toStore := .init ⟨seed.credentials, seed.sessions, []⟩
  minted := seed.credentials.keys ++ seed.sessions.keys

end BunMail.Users.Passwords
