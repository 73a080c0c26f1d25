import BunMail.Users.Session
import BunMail.Users.SsoOwnerRule

/-!
# Second factors and the sessions of one account

Signing in with the password, enrolling a second factor, removing one and the requests of the session
guard, statement by statement, over the credentials and the sessions of one account.

A sign-in reads whether the account has a second factor, verifies the password, and opens its session
later.  An enrolment inserts the factor, deletes the sessions that its `DELETE` finds and raises its
own.  A statement that waits for a row keeps what its subqueries read when it started.

Two counts of the commits come with the tables: each session has a number in the order in which the
sessions were opened, and keeps how many enrolments of a first factor its sign-in has read.
-/

namespace BunMail.Users.Factors

open Transactions Sso

/-! ## The tables -/

/-- A row of `sessions`, with its number and what its sign-in has read. -/
structure OpenedSession extends SessionRow where
  number : ℕ
  readAt : ℕ
  deriving DecidableEq

/-- An enrolment that took the account from no second factor to one: its session, and how many
sessions had been opened when its `DELETE` started, if it ran one. -/
structure Enrolled where
  sessionId : Text
  before : Option ℕ
  deriving DecidableEq

/-- The account, its credentials and sessions, the clock, and the counts. -/
structure Db where
  user : UserRow
  credentials : Table CredentialRow.id
  sessions : Table (fun r : OpenedSession => r.id)
  now : Time
  opened : ℕ
  enrolled : List Enrolled

/-- `hasSecondFactor`. -/
def hasSecondFactor (db : Db) : Bool := db.credentials.rows.any (·.type.secondFactor)

/-- A second factor other than `credentialId`. -/
def othersRemain (db : Db) (credentialId : Text) : Bool :=
  db.credentials.rows.any fun c => c.type.secondFactor && c.id != credentialId

/-- `hasSsoLink`. -/
def hasSsoLink (db : Db) : Bool := db.credentials.rows.any (·.type == .oauth)

/-- `totpCredentialOf`. -/
def totpCredentialOf (db : Db) : Option CredentialRow := db.credentials.rows.find? (·.type == .totp)

/-- The sign-in of the session read the account before an enrolment of a first factor that has
committed. -/
def OpenedSession.stale (r : OpenedSession) (db : Db) : Bool := decide (r.readAt < db.enrolled.length)

/-- A session that rests on the password alone although a second factor was enrolled since. -/
def OpenedSession.outdated (r : OpenedSession) (db : Db) : Bool := r.assurance == .password && r.stale db

/-! ## Reads -/

/-- `firstFactorAssurance`. -/
def firstFactorAssurance (secondFactor : Bool) : SessionAssurance :=
  if secondFactor then .pending else .password

/-- What `verifyPasswordLogin` answers when the password is right. -/
structure Login where
  assurance : SessionAssurance
  credentialId : Text
  deriving DecidableEq

/-- The `SELECT` of `verifyPasswordLogin`. -/
def verifyPasswordLogin (db : Db) : Option Login :=
  if db.user.disabled then none
  else (db.credentials.rows.find? (·.type == .password)).bind fun c => c.secretHash.map fun _ =>
    ⟨firstFactorAssurance (hasSecondFactor db), c.id⟩

/-- `findActiveSession`. -/
def findActiveSession (db : Db) (tokenHash : Text) : Option OpenedSession :=
  db.sessions.rows.find? fun r =>
    (r.tokenHash == tokenHash || r.previousTokenHash == some tokenHash) &&
      r.live db.now (hasSecondFactor db) && !db.user.disabled

/-- The row `lockLiveSession` selects. -/
def lockLiveSession (db : Db) (sessionId : Text) : Option OpenedSession :=
  (db.sessions.find? sessionId).filter fun r =>
    r.live db.now (hasSecondFactor db) && !db.user.disabled

/-! ## The calls -/

/-- A call of `confirmEnrolment` or of `finishRegistration`. -/
inductive Enrolment
  | totp (sessionId : Text) (call : EnrolmentCall)
  /-- `had` is the account's second factor as the locking `SELECT` has read it. -/
  | passkey (sessionId : Text) (call : RegistrationCall) (had : Bool)
  deriving DecidableEq

/-- The credential. -/
def Enrolment.row : Enrolment → CredentialRow
  | .totp _ call => call.row
  | .passkey _ call _ => call.row

/-- The session it is made in. -/
def Enrolment.sessionId : Enrolment → Text
  | .totp sessionId _ | .passkey sessionId _ _ => sessionId

/-- It deletes the other sessions. -/
def Enrolment.revokes : Enrolment → Bool
  | .totp _ _ => true
  | .passkey _ _ had => !had

/-- A sign-in whose account has been read, with the id and the token it mints. -/
structure SignIn where
  id : Text
  tokenHash : Text
  login : Login
  readAt : ℕ
  deriving DecidableEq

/-- A call of `rotateSession`, with the token it mints. -/
structure Rotation where
  sessionId : Text
  presentedHash : Text
  hash : Text
  deriving DecidableEq

/-- What a transaction locks: the account, its other rows, and the index entries of a credential
not committed yet. -/
inductive RowKey
  | user
  | credential (id : Text)
  | session (id : Text)
  | oneTotp
  | passkeyId (id : Text)
  deriving DecidableEq

/-- How far a call has come. -/
inductive Phase
  | passwordRead (signIn : SignIn)
  | passwordVerified (signIn : SignIn)
  /-- `rotateSession` has begun, at that instant. -/
  | rotating (rotation : Rotation) (startedAt : Time)
  | rotated (rotation : Rotation) (startedAt : Time)
  /-- `lockLiveSession` waits for the row that it has selected. -/
  | selecting (sessionId : Text) (startedAt : Time) (factor : Bool)
  | liveLocked (sessionId : Text)
  /-- `confirmEnrolment` has locked its session. -/
  | confirmLocked (sessionId : Text) (call : EnrolmentCall)
  /-- It found no `totp` credential, and the code matches. -/
  | confirmChecked (sessionId : Text) (call : EnrolmentCall)
  /-- The locking `SELECT` of `finishRegistration` has started. -/
  | registering (sessionId : Text) (call : RegistrationCall) (had : Bool)
  | registerLocked (sessionId : Text) (call : RegistrationCall) (had : Bool)
  | inserted (e : Enrolment)
  /-- The `DELETE` has found the sessions `ids`, when `before` had been opened. -/
  | deleting (e : Enrolment) (ids : List Text) (before : ℕ)
  /-- The `DELETE` is done, or was left out. -/
  | deleted (e : Enrolment) (ids : List Text) (before : Option ℕ)
  /-- The call's session is raised to `mfa`, and the account's `updated_at` set. -/
  | raised (e : Enrolment) (ids : List Text) (before : Option ℕ)
  /-- The credential to remove is read, outside a transaction. -/
  | removalRead (removal : Removal) (credentialId : Text)
  /-- The locking `SELECT` of `removalBreaksOwnerSsoRule` has started, with its subqueries. -/
  | removalSelecting (removal : Removal) (credentialId : Text) (linked others : Bool)
  | removalLocked (removal : Removal) (credentialId : Text) (linked others : Bool)
  /-- The credential is deleted, and by the cascade the sessions `bound` to it. -/
  | removed (credentialId : Text) (bound : List Text)
  | ended
  deriving DecidableEq

abbrev State := Store Db Phase

/-- The index entries of a credential, held until it is committed. -/
def indexLocks (row : CredentialRow) : List (RowKey × Mode) :=
  (.credential row.id, .update) ::
    match row.type with
    | .totp => [(.oneTotp, .update)]
    | .passkey => row.providerAccountId.toList.map fun id => (.passkeyId id, .update)
    | .password | .oauth => []

/-- The row locks of the enrolment from its first statement on. -/
def Enrolment.locks : Enrolment → List (RowKey × Mode)
  | .totp sessionId _ => [(.session sessionId, .update), (.user, .keyShare)]
  | .passkey .. => [(.user, .update)]

/-- The row locks of the enrolment at its end. -/
def Enrolment.lastLocks (e : Enrolment) : List (RowKey × Mode) :=
  [(.session e.sessionId, .noKeyUpdate), (.user, .noKeyUpdate)]

def sessionLocks (ids : List Text) : List (RowKey × Mode) := ids.map fun id => (.session id, .update)

/-- The locks of a phase. -/
def locks : Phase → List (RowKey × Mode)
  | .rotated rotation _ => [(.session rotation.sessionId, .noKeyUpdate)]
  | .liveLocked sessionId => [(.session sessionId, .update)]
  | .confirmLocked sessionId _ | .confirmChecked sessionId _ => [(.session sessionId, .update)]
  | .registerLocked .. => [(.user, .update)]
  | .inserted e | .deleting e _ _ => e.locks ++ indexLocks e.row
  | .deleted e ids _ => e.locks ++ indexLocks e.row ++ sessionLocks ids
  | .raised e ids _ => e.locks ++ indexLocks e.row ++ sessionLocks ids ++ e.lastLocks
  | .removalLocked .. => [(.user, .update)]
  | .removed credentialId bound =>
    (.user, .update) :: (.credential credentialId, .update) :: sessionLocks bound
  | .passwordRead _ | .passwordVerified _ | .rotating .. | .selecting .. | .registering ..
  | .removalRead .. | .removalSelecting .. | .ended => []

/-! ## Writes -/

/-- The `UPDATE` of `rotateSession`. -/
def Rotation.update (rotation : Rotation) (startedAt : Time) (r : OpenedSession) : OpenedSession :=
  if r.id = rotation.sessionId ∧ r.rotatable startedAt rotation.presentedHash = true then
    { r with toSessionRow := r.toSessionRow.rotated startedAt rotation.hash }
  else r

theorem Rotation.update_id (rotation : Rotation) (startedAt : Time) (r : OpenedSession) :
    (rotation.update startedAt r).id = r.id := by
  unfold Rotation.update
  split_ifs <;> rfl

/-- `markSessionMfa` and `raiseSessionToMfa`. -/
def raiseSession (sessionId : Text) (r : OpenedSession) : OpenedSession :=
  if r.id = sessionId then { r with assurance := .mfa } else r

theorem raiseSession_id (sessionId : Text) (r : OpenedSession) :
    (raiseSession sessionId r).id = r.id := by
  unfold raiseSession
  split_ifs <;> rfl

/-- What a transaction has written. -/
def writes : Phase → Db → Db
  | .rotated rotation startedAt => fun db =>
    { db with
      sessions := db.sessions.updateAll (rotation.update startedAt) (rotation.update_id startedAt) }
  | .raised e ids before => fun db =>
    { db with
      credentials := db.credentials.insert e.row
      sessions := (db.sessions.deleteWhere fun r => ids.contains r.id).updateAll
        (raiseSession e.sessionId) (raiseSession_id e.sessionId)
      enrolled := if hasSecondFactor db then db.enrolled else db.enrolled ++ [⟨e.sessionId, before⟩] }
  | .removed credentialId bound => fun db =>
    { db with
      credentials := db.credentials.deleteWhere (·.id == credentialId)
      sessions := db.sessions.deleteWhere fun r => bound.contains r.id }
  | _ => id

/-! ## Steps -/

/-- The calls. -/
inductive Call
  /-- `verifyPasswordLogin`, then `createSession`. -/
  | signIn (id tokenHash : Text)
  | rotateSession (rotation : Rotation)
  | lockLiveSession (sessionId : Text)
  | confirmEnrolment (sessionId : Text) (call : EnrolmentCall)
  | finishRegistration (sessionId : Text) (call : RegistrationCall)
  | disableTwoFactor
  | deletePasskey (passkeyId : Text)
  deriving DecidableEq

/-- A call that starts, one statement of a call, its failure, a sign-out, or time. -/
inductive Action
  | start (t : ℕ) (call : Call)
  /-- The call `t` goes on; `ok` answers what these tables do not: the password, the pending secret,
  the code and the attempt budget. -/
  | next (t : ℕ) (ok : Bool)
  /-- A statement of `t` fails, or a deadlock ends it. -/
  | fail (t : ℕ)
  | revokeSessionByToken (t : ℕ) (tokenHash : Text)
  | tick (ms : ℕ)
  deriving DecidableEq

/-- A unique index refuses the credential. -/
def violates (db : Db) (row : CredentialRow) : Bool := db.credentials.rows.any row.clashes

/-- The credential the `DELETE` of a removal names: for `disableTwoFactor` the one its code
matched. -/
def removalTarget (db : Db) (credentialId : Text) : Removal → Option Text
  | .totp => (totpCredentialOf db).map (·.id)
  | .passkey =>
    if db.credentials.rows.any (fun c => c.id == credentialId && c.type == .passkey) then
      some credentialId
    else none

/-- The session a sign-in opens. -/
def SignIn.row (signIn : SignIn) (db : Db) : OpenedSession where
  toSessionRow := NewSession.row
    ⟨signIn.id, signIn.tokenHash, db.user.id, signIn.login.assurance, some signIn.login.credentialId⟩
    db.now
  number := db.opened
  readAt := signIn.readAt

/-- The rows its foreign keys name. -/
def SignIn.references (signIn : SignIn) : List (RowKey × Mode) :=
  [(.user, .keyShare), (.credential signIn.login.credentialId, .keyShare)]

/-- `createSession` inserts: its foreign keys hold, and its id is new. -/
def opens (s : State) (t : ℕ) (signIn : SignIn) : Bool :=
  s.grants locks t signIn.references && s.db.credentials.keys.contains signIn.login.credentialId &&
    !s.db.sessions.keys.contains signIn.id

/-- The session is committed. -/
def openSession (db : Db) (row : OpenedSession) : Db :=
  { db with sessions := db.sessions.insert row, opened := db.opened + 1 }

/-- `INSERT` of the credential. -/
def insert (s : State) (t : ℕ) (e : Enrolment) : State :=
  if violates s.db e.row then s.put t .ended else s.enter locks t (.inserted e)

/-- The sessions of the account but one. -/
def otherSessions (db : Db) (sessionId : Text) : List Text :=
  (db.sessions.rows.filter fun r => r.id != sessionId).map fun r => r.id

/-- The sessions a credential opened. -/
def boundSessions (db : Db) (credentialId : Text) : List Text :=
  (db.sessions.rows.filter fun r => r.credentialId == some credentialId).map fun r => r.id

/-- The next statement of the call `t`, in the phase `p`. -/
def nextStatement (s : State) (t : ℕ) (ok : Bool) : Phase → State
  | .passwordRead signIn => s.put t (if ok then .passwordVerified signIn else .ended)
  | .passwordVerified signIn =>
    if opens s t signIn then
      { s.put t .ended with db := openSession s.db (signIn.row s.db) }
    else if s.grants locks t signIn.references then s.put t .ended
    else s
  | .rotating rotation startedAt =>
    if (s.db.sessions.find? rotation.sessionId).any
        (fun r => r.rotatable startedAt rotation.presentedHash) then
      s.enter locks t (.rotated rotation startedAt)
    else s.put t .ended
  | .rotated rotation startedAt => s.commit writes t (.rotated rotation startedAt) .ended
  | .selecting sessionId startedAt factor =>
    if (s.db.sessions.find? sessionId).any (fun r => r.live startedAt factor) then
      s.enter locks t (.liveLocked sessionId)
    else s.put t .ended
  | .liveLocked _ => s.put t .ended
  | .confirmLocked sessionId call =>
    s.put t (if ok && (totpCredentialOf s.db).isNone then .confirmChecked sessionId call else .ended)
  | .confirmChecked sessionId call => insert s t (.totp sessionId call)
  | .registering sessionId call had => s.enter locks t (.registerLocked sessionId call had)
  | .registerLocked sessionId call had => insert s t (.passkey sessionId call had)
  | .inserted e =>
    if e.revokes then s.put t (.deleting e (otherSessions s.db e.sessionId) s.db.opened)
    else s.put t (.deleted e [] none)
  | .deleting e ids before => s.enter locks t (.deleted e ids (some before))
  | .deleted e ids before => s.enter locks t (.raised e ids before)
  | .raised e ids before => s.commit writes t (.raised e ids before) .ended
  | .removalRead removal credentialId =>
    s.put t (if ok then .removalSelecting removal credentialId (hasSsoLink s.db)
      (othersRemain s.db credentialId) else .ended)
  | .removalSelecting removal credentialId linked others =>
    s.enter locks t (.removalLocked removal credentialId linked others)
  | .removalLocked removal credentialId linked others =>
    if !ok || removalBreaksOwnerSsoRule s.db.user.role linked others then s.put t .ended
    else (removalTarget s.db credentialId removal).elim (s.put t .ended) fun id =>
      s.enter locks t (.removed id (boundSessions s.db id))
  | .removed credentialId bound => s.commit writes t (.removed credentialId bound) .ended
  | .ended => s

/-- The first statement of a call. -/
def start (s : State) (t : ℕ) : Call → State
  | .signIn id tokenHash =>
    s.put t ((verifyPasswordLogin s.db).elim .ended fun login =>
      .passwordRead ⟨id, tokenHash, login, s.db.enrolled.length⟩)
  | .rotateSession rotation => s.put t (.rotating rotation s.db.now)
  | .lockLiveSession sessionId =>
    s.put t ((lockLiveSession s.db sessionId).elim .ended fun _ =>
      .selecting sessionId s.db.now (hasSecondFactor s.db))
  | .confirmEnrolment sessionId call =>
    if s.db.sessions.keys.contains sessionId then s.enter locks t (.confirmLocked sessionId call)
    else s.put t .ended
  | .finishRegistration sessionId call =>
    s.put t (.registering sessionId call (hasSecondFactor s.db))
  | .disableTwoFactor =>
    s.put t ((totpCredentialOf s.db).elim .ended fun c => .removalRead .totp c.id)
  | .deletePasskey passkeyId =>
    s.put t ((removalTarget s.db passkeyId .passkey).elim .ended (.removalRead .passkey))

/-- The sessions `revokeSessionByToken` deletes. -/
def presents (tokenHash : Text) (r : OpenedSession) : Bool :=
  r.tokenHash == tokenHash || r.previousTokenHash == some tokenHash

/-- One action. -/
def step (s : State) : Action → State
  | .start t call => if (s.phase? t).isSome then s else start s t call
  | .next t ok => (s.phase? t).elim s (nextStatement s t ok)
  | .fail t => if (s.phase? t).isSome then s.put t .ended else s
  | .revokeSessionByToken t tokenHash =>
    if (s.phase? t).isNone && s.grants locks t
        (sessionLocks ((s.db.sessions.rows.filter (presents tokenHash)).map fun r => r.id)) then
      { s with db := { s.db with sessions := s.db.sessions.deleteWhere (presents tokenHash) } }
    else s
  | .tick ms => { s with db := { s.db with now := s.db.now + ms } }

/-- Nothing runs, and nothing was enrolled yet. -/
def init (user : UserRow) (credentials : Table CredentialRow.id)
    (sessions : Table (fun r : OpenedSession => r.id)) (now : Time) : State :=
  Store.init
    { user := user
      credentials := credentials
      sessions := sessions.updateAll (fun r => { r with number := 0, readAt := 0 }) fun _ => rfl
      now := now
      opened := 1
      enrolled := [] }

end BunMail.Users.Factors
