import BunMail.Lib.Run
import BunMail.Lib.Transactions
import BunMail.Users.Schema

/-!
# Second factors, SSO links and the owner

The transactions that link an SSO identity, add or remove a second factor, hand ownership over or
complete a reset, statement by statement, over the tables `users` and `user_credentials`.

`linkSsoIdentity` and `removalBreaksOwnerSsoRule` read the account's links and second factors in the
`SELECT ... FOR UPDATE` that locks its row.  A statement that waits for the lock then reads the row
again, and keeps what its subqueries read when it started.
-/

namespace BunMail.Users.Sso

open Transactions

/-! ## The tables -/

/-- The two tables. -/
structure Accounts where
  users : Table UserRow.id
  credentials : Table CredentialRow.id

/-- The credentials of an account. -/
def credentialsOf (db : Accounts) (userId : Text) : List CredentialRow :=
  db.credentials.rows.filter (·.userId == userId)

/-- `hasSecondFactor`. -/
def hasSecondFactor (db : Accounts) (userId : Text) : Bool :=
  (credentialsOf db userId).any (·.type.secondFactor)

/-- `hasSsoLink`. -/
def hasSsoLink (db : Accounts) (userId : Text) : Bool :=
  (credentialsOf db userId).any (·.type == .oauth)

/-- The account has a second factor other than `credentialId`. -/
def othersRemain (db : Accounts) (userId credentialId : Text) : Bool :=
  (credentialsOf db userId).any fun c => c.type.secondFactor && c.id != credentialId

/-- `totpCredentialOf`. -/
def totpCredentialOf (db : Accounts) (userId : Text) : Option CredentialRow :=
  (credentialsOf db userId).find? (·.type == .totp)

/-- `ssoLinkWithoutSecondFactor`. -/
def ssoLinkWithoutSecondFactor (db : Accounts) (userId : Text) : Bool :=
  hasSsoLink db userId && !hasSecondFactor db userId

/-- `ownerNeedsSecondFactor`. -/
def ownerNeedsSecondFactor (role : UserRole) (factor : Bool) : Bool := role == .owner && !factor

/-- What `removalBreaksOwnerSsoRule` answers from the row it has read. -/
def removalBreaksOwnerSsoRule (role : UserRole) (linked others : Bool) : Bool :=
  role == .owner && linked && !others

/-- `INSERT` of a credential that breaks no unique index. -/
def insertCredential (row : CredentialRow) (db : Accounts) : Accounts :=
  { db with credentials := db.credentials.upsert row (fun old => old) fun _ _ => rfl }

/-- A unique index refuses the credential. -/
def violates (db : Accounts) (row : CredentialRow) : Bool := db.credentials.rows.any row.clashes

/-- `DELETE` of the credentials `gone` holds of. -/
def deleteCredentials (gone : CredentialRow → Bool) (db : Accounts) : Accounts :=
  { db with credentials := db.credentials.deleteWhere gone }

/-- The row with its role set. -/
def withRole (id : Text) (role : UserRole) (u : UserRow) : UserRow :=
  if u.id = id then { u with role := role } else u

theorem withRole_id (id : Text) (role : UserRole) (u : UserRow) :
    (withRole id role u).id = u.id := by
  unfold withRole
  split_ifs <;> rfl

/-- `UPDATE users SET role = ... WHERE id = ...`. -/
def setRole (id : Text) (role : UserRole) (db : Accounts) : Accounts :=
  { db with users := db.users.updateAll (withRole id role) (withRole_id id role) }

/-! ## The calls -/

/-- A call of `linkSsoIdentity`, with the id it mints. -/
structure LinkCall where
  userId : Text
  linkId : Text
  provider : Text
  sub : Text
  deriving DecidableEq

/-- The link. -/
def LinkCall.row (call : LinkCall) : CredentialRow :=
  { id := call.linkId
    userId := call.userId
    type := .oauth
    provider := some call.provider
    providerAccountId := some call.sub }

/-- The link's provider or identity is taken already. -/
def LinkCall.existing (call : LinkCall) (db : Accounts) : Bool :=
  db.credentials.rows.any fun c =>
    c.provider == some call.provider &&
      (c.providerAccountId == some call.sub || (c.userId == call.userId && c.type == .oauth))

/-- A call of `confirmEnrolment`, with the id it mints, the pending secret and the step its code
matches. -/
structure EnrolmentCall where
  userId : Text
  credentialId : Text
  secret : Text
  step : ℕ
  deriving DecidableEq

/-- The `totp` credential. -/
def EnrolmentCall.row (call : EnrolmentCall) : CredentialRow :=
  { id := call.credentialId
    userId := call.userId
    type := .totp
    secretHash := some call.secret
    counter := some call.step }

/-- A call of `finishRegistration`, with the id it mints and the verified passkey. -/
structure RegistrationCall where
  userId : Text
  credentialId : Text
  passkeyId : Text
  counter : ℕ
  deriving DecidableEq

/-- The `passkey` credential. -/
def RegistrationCall.row (call : RegistrationCall) : CredentialRow :=
  { id := call.credentialId
    userId := call.userId
    type := .passkey
    providerAccountId := some call.passkeyId
    counter := some call.counter }

/-- The link a reset was opened with. -/
inductive ResetLink
  /-- `completePasswordReset`. -/
  | passwordReset
  /-- `completeOwnerSetup`. -/
  | ownerSetup
  deriving DecidableEq

/-- A completed reset link: the account of its token, the id it mints, and the new hash. -/
structure ResetCall where
  link : ResetLink
  userId : Text
  credentialId : Text
  secretHash : Text
  deriving DecidableEq

/-- The new `password` credential. -/
def ResetCall.row (call : ResetCall) : CredentialRow :=
  { id := call.credentialId
    userId := call.userId
    type := .password
    secretHash := some call.secretHash }

/-- The account is in `liveOwnerIds`, which only the owner setup link asks for. -/
def ResetCall.eligible (call : ResetCall) (db : Accounts) : Bool :=
  call.link == .passwordReset ||
    (db.users.find? call.userId).any fun u => u.role == .owner && !u.disabled

/-- `removeSecondFactors`. -/
def removeSecondFactors (userId : Text) : Accounts → Accounts :=
  deleteCredentials fun c => c.userId == userId && (c.type == .totp || c.type == .passkey)

/-- `removeSsoLinks`. -/
def removeSsoLinks (userId : Text) : Accounts → Accounts :=
  deleteCredentials fun c => c.userId == userId && c.type == .oauth

/-- The credentials a completed reset leaves: its new password. -/
def ResetCall.write (call : ResetCall) (db : Accounts) : Accounts :=
  removeSsoLinks call.userId (removeSecondFactors call.userId (insertCredential call.row
    (deleteCredentials (fun c => c.userId == call.userId && c.type == .password) db)))

/-- The second factor a removal is about. -/
inductive Removal
  /-- `disableTwoFactor`. -/
  | totp
  /-- `deletePasskey`. -/
  | passkey
  deriving DecidableEq

/-- The `WHERE` of the removal's `DELETE`. -/
def Removal.selects : Removal → Text → Text → CredentialRow → Bool
  | .totp, _, credentialId, c => c.id == credentialId
  | .passkey, userId, credentialId, c =>
    c.id == credentialId && c.userId == userId && c.type == .passkey

/-! ## The transactions -/

/-- What a transaction locks: the owner lock, rows, and the index entries of a row not committed
yet. -/
inductive RowKey
  | ownerLock
  | user (id : Text)
  | credential (id : Text)
  | oneOf (type : CredentialType) (userId : Text)
  | identity (provider providerAccountId : Text)
  | passkeyId (id : Text)
  deriving DecidableEq

/-- The unique index entries of a credential. -/
def indexKeys (row : CredentialRow) : List RowKey :=
  .credential row.id ::
    match row.type with
    | .password | .totp => [.oneOf row.type row.userId]
    | .passkey => row.providerAccountId.toList.map .passkeyId
    | .oauth => row.provider.toList.flatMap fun p => row.providerAccountId.toList.map (.identity p)

/-- How far a call has come. -/
inductive Phase
  /-- The locking `SELECT` of `linkSsoIdentity` has started: `factor` is its `hasSecondFactor`. -/
  | linkSelecting (call : LinkCall) (factor : Bool)
  | linkLocked (call : LinkCall) (role : UserRole) (factor : Bool)
  | linkInserted (call : LinkCall)
  /-- The credential to remove is read, outside a transaction. -/
  | removalRead (removal : Removal) (userId credentialId : Text)
  /-- The locking `SELECT` of `removalBreaksOwnerSsoRule` has started, with its subqueries. -/
  | removalSelecting (removal : Removal) (userId credentialId : Text) (linked others : Bool)
  | removalLocked (removal : Removal) (userId credentialId : Text) (role : UserRole)
    (linked others : Bool)
  | removed (removal : Removal) (userId credentialId : Text)
  /-- `confirmEnrolment` found no `totp` credential. -/
  | enrolmentChecked (call : EnrolmentCall)
  /-- The credential is inserted: its foreign key holds the account in key share mode. -/
  | totpInserted (call : EnrolmentCall)
  /-- The account's `updated_at` is set. -/
  | totpTouched (call : EnrolmentCall)
  | registrationLocked (call : RegistrationCall)
  | passkeyInserted (call : RegistrationCall)
  /-- The rules of a transfer passed on rows read without a lock. -/
  | transferRead (actorId targetId : Text)
  | transferOwned (actorId targetId : Text)
  | actorLocked (actor : UserRow) (targetId : Text)
  | targetLocked (actor target : UserRow)
  | transferred (actor target : UserRow)
  | resetOwned (call : ResetCall)
  /-- The token is spent. -/
  | resetSpent (call : ResetCall)
  | resetLocked (call : ResetCall)
  | resetWritten (call : ResetCall)
  /-- Refused, rolled back or committed. -/
  | ended
  deriving DecidableEq

/-- The index entries, held until the insert is committed. -/
def indexLocks (row : CredentialRow) : List (RowKey × Mode) :=
  (indexKeys row).map fun k => (k, .update)

/-- The locks of a phase. -/
def locks : Phase → List (RowKey × Mode)
  | .linkLocked call _ _ => [(.user call.userId, .update)]
  | .linkInserted call => (.user call.userId, .update) :: indexLocks call.row
  | .removalLocked _ userId _ _ _ _ => [(.user userId, .update)]
  | .removed _ userId credentialId => [(.user userId, .update), (.credential credentialId, .update)]
  | .totpInserted call => (.user call.userId, .keyShare) :: indexLocks call.row
  | .totpTouched call => (.user call.userId, .noKeyUpdate) :: indexLocks call.row
  | .registrationLocked call => [(.user call.userId, .update)]
  | .passkeyInserted call => (.user call.userId, .update) :: indexLocks call.row
  | .transferOwned _ _ => [(.ownerLock, .update)]
  | .actorLocked actor _ => [(.ownerLock, .update), (.user actor.id, .noKeyUpdate)]
  | .targetLocked actor target | .transferred actor target =>
    [(.ownerLock, .update), (.user actor.id, .noKeyUpdate), (.user target.id, .noKeyUpdate)]
  | .resetOwned _ | .resetSpent _ => [(.ownerLock, .update)]
  | .resetLocked call => [(.ownerLock, .update), (.user call.userId, .update)]
  | .resetWritten call =>
    (.ownerLock, .update) :: (.user call.userId, .update) :: indexLocks call.row
  | .linkSelecting .. | .removalRead .. | .removalSelecting .. | .enrolmentChecked _
  | .transferRead .. | .ended => []

/-- The uncommitted writes of a phase. -/
def writes : Phase → Accounts → Accounts
  | .linkInserted call => insertCredential call.row
  | .removed removal userId credentialId =>
    deleteCredentials (removal.selects userId credentialId)
  | .totpInserted call | .totpTouched call => insertCredential call.row
  | .passkeyInserted call => insertCredential call.row
  | .transferred actor target => fun db => setRole target.id .owner (setRole actor.id .admin db)
  | .resetWritten call => call.write
  | .linkSelecting .. | .linkLocked .. | .removalRead .. | .removalSelecting .. | .removalLocked ..
  | .enrolmentChecked _ | .registrationLocked _ | .transferRead .. | .transferOwned ..
  | .actorLocked .. | .targetLocked .. | .resetOwned _ | .resetSpent _ | .resetLocked _
  | .ended => id

/-- The committed tables and the calls so far. -/
abbrev State := Store Accounts Phase

/-- The calls. -/
inductive Call
  | linkSsoIdentity (call : LinkCall)
  | disableTwoFactor (userId : Text)
  | deletePasskey (userId passkeyId : Text)
  | confirmEnrolment (call : EnrolmentCall)
  | finishRegistration (call : RegistrationCall)
  | transferOwnership (actorId targetId : Text)
  /-- `completePasswordReset` or `completeOwnerSetup`. -/
  | completeReset (call : ResetCall)
  deriving DecidableEq

/-- A call that starts, one statement of a call, or its failure. -/
inductive Action
  | start (t : ℕ) (call : Call)
  /-- The call `t` goes on; `ok` answers what these tables do not: the session, the token, the
  attempt budget, the password and the code. -/
  | next (t : ℕ) (ok : Bool)
  /-- A statement of `t` fails, or a deadlock ends it. -/
  | fail (t : ℕ)
  deriving DecidableEq

/-- The call `t` has locked the row of `userId`, and goes on from what it reads there. -/
def lockUser (s : State) (t : ℕ) (userId : Text) (p : UserRow → Phase) : State :=
  match s.db.users.find? userId with
  | none => s.put t .ended
  | some row => s.enter locks t (p row)

/-- `INSERT` of the credential, in the phase `p`. -/
def insert (s : State) (t : ℕ) (row : CredentialRow) (p : Phase) : State :=
  if violates s.db row then s.put t .ended else s.enter locks t p

/-- The rows of a transfer pass `accountActionRefusal`, and the target the owner rule. -/
def transferAllowed (db : Accounts) (actor target : UserRow) : Bool :=
  (accountActionRefusal .transferOwnership actor target).isNone &&
    !ssoLinkWithoutSecondFactor db target.id

/-- The credential the `DELETE` of a removal names: for `disableTwoFactor` the one its code
matched. -/
def Removal.target (db : Accounts) (userId credentialId : Text) : Removal → Option Text
  | .totp => (totpCredentialOf db userId).map (·.id)
  | .passkey =>
    if db.credentials.rows.any (Removal.passkey.selects userId credentialId) then some credentialId
    else none

/-- The next statement of the call `t`, in the phase `p`. -/
def nextStatement (s : State) (t : ℕ) (ok : Bool) : Phase → State
  | .linkSelecting call factor =>
    lockUser s t call.userId fun row => .linkLocked call row.role factor
  | .linkLocked call role factor =>
    if !ok || ownerNeedsSecondFactor role factor || call.existing s.db then s.put t .ended
    else insert s t call.row (.linkInserted call)
  | .linkInserted call => s.commit writes t (.linkInserted call) .ended
  | .removalRead removal userId credentialId =>
    s.put t (if ok then .removalSelecting removal userId credentialId (hasSsoLink s.db userId)
      (othersRemain s.db userId credentialId) else .ended)
  | .removalSelecting removal userId credentialId linked others =>
    lockUser s t userId fun row => .removalLocked removal userId credentialId row.role linked others
  | .removalLocked removal userId credentialId role linked others =>
    if !ok || removalBreaksOwnerSsoRule role linked others then s.put t .ended
    else (removal.target s.db userId credentialId).elim (s.put t .ended) fun id =>
      s.enter locks t (.removed removal userId id)
  | .removed removal userId credentialId =>
    s.commit writes t (.removed removal userId credentialId) .ended
  | .enrolmentChecked call =>
    if !ok || (s.db.users.find? call.userId).isNone then s.put t .ended
    else insert s t call.row (.totpInserted call)
  | .totpInserted call => s.enter locks t (.totpTouched call)
  | .totpTouched call => s.commit writes t (.totpTouched call) .ended
  | .registrationLocked call => insert s t call.row (.passkeyInserted call)
  | .passkeyInserted call => s.commit writes t (.passkeyInserted call) .ended
  | .transferRead actorId targetId =>
    if ok then s.enter locks t (.transferOwned actorId targetId) else s.put t .ended
  | .transferOwned actorId targetId => lockUser s t actorId fun actor => .actorLocked actor targetId
  | .actorLocked actor targetId =>
    if actor.disabled then s.put t .ended
    else lockUser s t targetId fun target => .targetLocked actor target
  | .targetLocked actor target =>
    s.put t (if transferAllowed s.db actor target then .transferred actor target else .ended)
  | .transferred actor target => s.commit writes t (.transferred actor target) .ended
  | .resetOwned call => s.put t (if ok && call.eligible s.db then .resetSpent call else .ended)
  | .resetSpent call => lockUser s t call.userId fun _ => .resetLocked call
  | .resetLocked call =>
    if s.db.credentials.keys.contains call.credentialId then s.put t .ended
    else s.enter locks t (.resetWritten call)
  | .resetWritten call => s.commit writes t (.resetWritten call) .ended
  | .ended => s

/-- The first statement of a call. -/
def start (s : State) (t : ℕ) : Call → State
  | .linkSsoIdentity call => s.put t (.linkSelecting call (hasSecondFactor s.db call.userId))
  | .disableTwoFactor userId =>
    s.put t ((totpCredentialOf s.db userId).elim .ended fun c => .removalRead .totp userId c.id)
  | .deletePasskey userId passkeyId =>
    s.put t (if s.db.credentials.rows.any (Removal.passkey.selects userId passkeyId) then
      .removalRead .passkey userId passkeyId else .ended)
  | .confirmEnrolment call =>
    s.put t (if (totpCredentialOf s.db call.userId).isNone then .enrolmentChecked call else .ended)
  | .finishRegistration call => lockUser s t call.userId fun _ => .registrationLocked call
  | .transferOwnership actorId targetId =>
    s.put t (if (s.db.users.find? actorId).any fun actor => !actor.disabled &&
        (s.db.users.find? targetId).any (transferAllowed s.db actor) then
      .transferRead actorId targetId else .ended)
  | .completeReset call => s.enter locks t (.resetOwned call)

/-- One action. -/
def step (s : State) : Action → State
  | .start t call => if (s.phase? t).isSome then s else start s t call
  | .next t ok => (s.phase? t).elim s (nextStatement s t ok)
  | .fail t => if (s.phase? t).isSome then s.put t .ended else s

end BunMail.Users.Sso
