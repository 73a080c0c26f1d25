import BunMail.Users.SsoOwnerRule

/-!
# The directory of accounts

Every transaction that changes accounts, their invitations, setup and reset links: the owner's
bootstrap and setup, account actions, invitations, password resets and changes.  The owner lock
serializes all of them but the invitations, which only add accounts; here each is one step.  A
transaction that fails rolls back, and is no step.
-/

namespace BunMail.Users.Admin

open Sso

/-! ## The tables -/

/-- `TOKEN_PURPOSES`. -/
inductive TokenPurpose
  | ownerSetup | invite | passwordReset
  deriving DecidableEq, Repr

/-- A row of `user_tokens`. -/
structure TokenRow where
  id : Text
  userId : Option Text := none
  email : Option Text := none
  purpose : TokenPurpose
  tokenHash : Text
  role : Option UserRole := none
  invitedBy : Option Text := none
  expiresAt : Time
  usedAt : Option Time := none
  revokedAt : Option Time := none
  deriving DecidableEq

/-- A row of `sessions`, as far as these transactions look at it. -/
structure OpenSession where
  id : Text
  userId : Text
  credentialId : Option Text
  deriving DecidableEq

/-- A row with a creator: an API key, a template, a domain or a webhook. -/
structure OwnedRecord where
  isKey : Bool
  id : Text
  createdByUserId : Option Text
  isActive : Bool := true
  isAdmin : Bool := false
  deriving DecidableEq

/-- The tables. -/
structure Directory extends Accounts where
  tokens : Table TokenRow.id
  sessions : List OpenSession
  records : List OwnedRecord

/-- No account yet. -/
def Directory.empty : Directory := ⟨⟨Table.empty, Table.empty⟩, Table.empty, [], []⟩

/-! ## Statements -/

/-- Not spent, not revoked. -/
def TokenRow.isOpen (r : TokenRow) : Bool := r.usedAt.isNone && r.revokedAt.isNone

/-- `openInvite`. -/
def openInvite (r : TokenRow) : Bool := r.purpose == .invite && r.isOpen

/-- `openReset`. -/
def openReset (r : TokenRow) : Bool := r.purpose == .passwordReset && r.isOpen

/-- The rewrite of the tokens `p` selects. -/
def rewriteToken (p : TokenRow → Bool) (f : TokenRow → TokenRow) (r : TokenRow) : TokenRow :=
  if p r then { f r with id := r.id } else r

theorem rewriteToken_id (p : TokenRow → Bool) (f : TokenRow → TokenRow) (r : TokenRow) :
    (rewriteToken p f r).id = r.id := by
  unfold rewriteToken
  split_ifs <;> rfl

/-- `UPDATE user_tokens`. -/
def updateTokens (p : TokenRow → Bool) (f : TokenRow → TokenRow) (db : Directory) : Directory :=
  { db with tokens := db.tokens.updateAll (rewriteToken p f) (rewriteToken_id p f) }

/-- `SET revoked_at = now()`. -/
def revokeTokens (p : TokenRow → Bool) (now : Time) : Directory → Directory :=
  updateTokens p fun r => { r with revokedAt := some now }

/-- `SET used_at = now()`. -/
def spendToken (id : Text) (now : Time) : Directory → Directory :=
  updateTokens (·.id == id) fun r => { r with usedAt := some now }

/-- `INSERT INTO user_tokens`: `token_hash` is unique. -/
def insertToken (row : TokenRow) (db : Directory) : Option Directory :=
  if db.tokens.rows.any fun r => r.id == row.id || r.tokenHash == row.tokenHash then none
  else some { db with tokens := db.tokens.upsert row (fun old => old) fun _ _ => rfl }

/-- `INSERT INTO users`: `email` is unique, and so is the owner. -/
def insertUser (row : UserRow) (db : Directory) : Option Directory :=
  if db.users.rows.any fun u =>
    u.id == row.id || u.email == row.email || (u.role == .owner && row.role == .owner) then none
  else some { db with users := db.users.upsert row (fun old => old) fun _ _ => rfl }

/-- The rewrite of one account. -/
def rewriteUser (id : Text) (f : UserRow → UserRow) (u : UserRow) : UserRow :=
  if u.id = id then { f u with id := u.id } else u

theorem rewriteUser_id (id : Text) (f : UserRow → UserRow) (u : UserRow) :
    (rewriteUser id f u).id = u.id := by
  unfold rewriteUser
  split_ifs <;> rfl

/-- `UPDATE users ... WHERE id = ...`. -/
def updateUser (id : Text) (f : UserRow → UserRow) (db : Directory) : Directory :=
  { db with users := db.users.updateAll (rewriteUser id f) (rewriteUser_id id f) }

/-- `revokeAllUserSessions`. -/
def revokeAllUserSessions (userId : Text) (db : Directory) : Directory :=
  { db with sessions := db.sessions.filter (·.userId != userId) }

/-- `createSession`, bound to a credential. -/
def createSession (id userId credentialId : Text) (db : Directory) : Directory :=
  { db with sessions := db.sessions ++ [⟨id, userId, some credentialId⟩] }

/-- `DELETE FROM user_credentials`: the sessions bound to them go too. -/
def deleteCredentials (gone : CredentialRow → Bool) (db : Directory) : Directory :=
  { db with
    toAccounts := Sso.deleteCredentials gone db.toAccounts
    sessions := db.sessions.filter fun s => s.credentialId.all fun c =>
      db.credentials.rows.all fun r => !(gone r && r.id == c) }

/-- `INSERT INTO user_credentials`. -/
def insertCredential (row : CredentialRow) (db : Directory) : Option Directory :=
  if violates db.toAccounts row then none
  else some { db with toAccounts := Sso.insertCredential row db.toAccounts }

/-- `DELETE FROM users`: its credentials, sessions and tokens go too, what it issued or created
loses its name. -/
def deleteUser (id : Text) (db : Directory) : Directory :=
  { users := db.users.deleteWhere (·.id == id)
    credentials := db.credentials.deleteWhere (·.userId == id)
    tokens := (db.tokens.deleteWhere (·.userId == some id)).updateAll
      (rewriteToken (·.invitedBy == some id) fun r => { r with invitedBy := none })
      (rewriteToken_id _ _)
    sessions := db.sessions.filter (·.userId != id)
    records := db.records.map fun r =>
      if r.createdByUserId = some id then { r with createdByUserId := none } else r }

/-! ## Records and links of an account -/

/-- `disableKeysCreatedBy`. -/
def disableKeysCreatedBy (userId : Text) (db : Directory) : Directory :=
  { db with records := db.records.map fun r =>
      if r.isKey ∧ r.createdByUserId = some userId then { r with isActive := false } else r }

/-- `downgradeAdminKeysCreatedBy`. -/
def downgradeAdminKeysCreatedBy (userId : Text) (db : Directory) : Directory :=
  { db with records := db.records.map fun r =>
      if r.isKey ∧ r.createdByUserId = some userId then { r with isAdmin := false } else r }

/-- `moveOwnerRecords`: all but keys. -/
def moveOwnerRecords (fromUserId toUserId : Text) (db : Directory) : Directory :=
  { db with records := db.records.map fun r =>
      if r.isKey = false ∧ (r.createdByUserId = some fromUserId ∨ r.createdByUserId = none) then
        { r with createdByUserId := some toUserId }
      else r }

/-- `assignUnownedRecords`. -/
def assignUnownedRecords (ownerId : Text) (db : Directory) : Directory :=
  { db with records := db.records.map fun r =>
      if r.createdByUserId = none then { r with createdByUserId := some ownerId } else r }

/-- `revokeInvitesIssuedBy`. -/
def revokeInvitesIssuedBy (inviterId : Text) (role : Option UserRole) (now : Time) :
    Directory → Directory :=
  revokeTokens (fun r => openInvite r && r.invitedBy == some inviterId &&
    role.all fun role => r.role == some role) now

/-- `revokeOpenInvites`. -/
def revokeOpenInvites (email : Text) (now : Time) : Directory → Directory :=
  revokeTokens (fun r => openInvite r && r.email == some email) now

/-- `ResetLinkMatch`. -/
inductive ResetLinkMatch
  | user (userId : Text)
  | issuer (issuedBy : Text) (targetRole : Option UserRole)

/-- `resetLinkMatch`. -/
def ResetLinkMatch.selects (db : Directory) (r : TokenRow) : ResetLinkMatch → Bool
  | .user userId => r.userId == some userId
  | .issuer issuedBy targetRole => r.invitedBy == some issuedBy &&
      targetRole.all fun role => (r.userId.bind db.users.find?).any (·.role == role)

/-- `revokeResetLinks`. -/
def revokeResetLinks (m : ResetLinkMatch) (now : Time) (db : Directory) : Directory :=
  revokeTokens (fun r => openReset r && m.selects db r) now db

/-- `issuerStillManages`. -/
def issuerStillManages (db : Directory) (r : TokenRow) : Bool :=
  (r.invitedBy.bind db.users.find?).any fun issuer =>
    (r.userId.bind db.users.find?).any fun target =>
      issuer.id != target.id && !issuer.disabled && !target.disabled &&
        canManage issuer.role target.role

/-- `usableReset`. -/
def usableReset (db : Directory) (now : Time) (r : TokenRow) : Bool :=
  openReset r && decide (now < r.expiresAt) && issuerStillManages db r

/-- `inviterStillGrants`. -/
def inviterStillGrants (db : Directory) (r : TokenRow) : Bool :=
  (r.invitedBy.bind db.users.find?).any fun inviter =>
    !inviter.disabled && r.role.any fun role => canManage inviter.role role

/-- `acceptableInvite`. -/
def acceptableInvite (db : Directory) (now : Time) (r : TokenRow) : Bool :=
  openInvite r && decide (now < r.expiresAt) && inviterStillGrants db r

/-! ## The owner -/

/-- What a transaction mints. -/
structure Minted where
  userId : Text
  credentialId : Text
  tokenId : Text
  tokenHash : Text
  sessionId : Text
  deriving DecidableEq

/-- `findOwner`. -/
def findOwner (db : Directory) : Option UserRow := db.users.rows.find? (·.role == .owner)

/-- `hasPassword`. -/
def hasPassword (db : Directory) (userId : Text) : Bool :=
  (credentialsOf db.toAccounts userId).any (·.type == .password)

/-- `emailHeldByOther`. -/
def emailHeldByOther (db : Directory) (email : Text) (exceptUserId : Option Text) : Bool :=
  db.users.rows.any fun u => u.email == email && exceptUserId != some u.id

/-- `OWNER_SETUP_TTL_MS`. -/
def OWNER_SETUP_TTL_MS : Time := 24 * 60 * 60 * 1000

/-- A new setup link. -/
def setupToken (userId : Text) (ids : Minted) (now : Time) : TokenRow where
  id := ids.tokenId
  userId := some userId
  purpose := .ownerSetup
  tokenHash := ids.tokenHash
  expiresAt := now + OWNER_SETUP_TTL_MS

/-- `replaceSetupToken`. -/
def replaceSetupToken (userId : Text) (ids : Minted) (now : Time) (db : Directory) :
    Option Directory :=
  insertToken (setupToken userId ids now)
    (revokeTokens (fun r => r.purpose == .ownerSetup && r.isOpen) now db)

/-- `createOwner`. -/
def createOwner (email : Text) (ids : Minted) (now : Time) (db : Directory) : Option Directory :=
  (insertUser { id := ids.userId, email := email, role := .owner } db).bind
    (replaceSetupToken ids.userId ids now)

/-- `bootstrapOwnerRow`. -/
def bootstrapOwnerRow (email : Text) (ids : Minted) (now : Time) (db : Directory) :
    Option Directory :=
  match findOwner db with
  | none => if emailHeldByOther db email none then some db else createOwner email ids now db
  | some owner =>
    if hasPassword db owner.id then some db
    else if owner.email ≠ email then
      if emailHeldByOther db email (some owner.id) then some db
      else replaceSetupToken owner.id ids now
        (updateUser owner.id (fun u => { u with email := email }) db)
    else replaceSetupToken owner.id ids now db

/-- `bootstrapOwner`. -/
def bootstrapOwner (email : Text) (ids : Minted) (now : Time) (db : Directory) :
    Option Directory :=
  (bootstrapOwnerRow email ids now db).map fun db =>
    (findOwner db).elim db fun owner => assignUnownedRecords owner.id db

/-- `issueOwnerSetupLink`. -/
def issueOwnerSetupLink (ownerEmail : Option Text) (ids : Minted) (now : Time) (db : Directory) :
    Option Directory :=
  match findOwner db with
  | some owner =>
    replaceSetupToken owner.id ids now (revokeAllUserSessions owner.id
      (revokeTokens (fun r => r.userId == some owner.id && r.isOpen) now db))
  | none => ownerEmail.bind fun email =>
    if emailHeldByOther db email none then none else createOwner email ids now db

/-- A new `password` credential. -/
def passwordRow (userId secretHash : Text) (ids : Minted) : CredentialRow where
  id := ids.credentialId
  userId := userId
  type := .password
  secretHash := some secretHash

/-- The new password of a completed link, and the second factors and links it removes. -/
def replacePassword (userId secretHash : Text) (ids : Minted) (db : Directory) :
    Option Directory :=
  (insertCredential (passwordRow userId secretHash ids)
    (deleteCredentials (fun c => c.userId == userId && c.type == .password) db)).map fun db =>
    deleteCredentials (fun c => c.userId == userId && c.type == .oauth)
      (deleteCredentials (fun c => c.userId == userId && (c.type == .totp || c.type == .passkey)) db)

/-- `liveSetupToken`, of a live owner. -/
def liveSetup (db : Directory) (now : Time) (r : TokenRow) : Bool :=
  r.purpose == .ownerSetup && r.isOpen && decide (now < r.expiresAt) &&
    (r.userId.bind db.users.find?).any fun u => u.role == .owner && !u.disabled

/-- `completeOwnerSetup`. -/
def completeOwnerSetup (tokenHash secretHash : Text) (ids : Minted) (now : Time) (db : Directory) :
    Option Directory :=
  match db.tokens.rows.find? fun r => r.tokenHash == tokenHash && liveSetup db now r with
  | none => some db
  | some r =>
    r.userId.elim (some (spendToken r.id now db)) fun userId =>
      (replacePassword userId secretHash ids (spendToken r.id now db)).map fun db =>
        createSession ids.sessionId userId ids.credentialId (revokeAllUserSessions userId
          (revokeTokens (fun r => r.userId == some userId && r.isOpen) now db))

/-! ## Account actions -/

/-- An account action with its input. -/
inductive AccountInput
  /-- `changeAccountRole` with the submitted role. -/
  | changeRole (rawRole : Text)
  | deactivate
  | reactivate
  /-- `removeAccount` with the submitted confirmation. -/
  | remove (confirm : Text)
  /-- `transferOwnership`: whether the budget is spent, and whether the password is right. -/
  | transferOwnership (limited passwordOk : Bool)
  /-- `issuePasswordReset`. -/
  | resetPassword (ids : Minted)
  deriving DecidableEq

/-- Its `AccountAction`. -/
def AccountInput.action : AccountInput → AccountAction
  | .changeRole _ => .changeRole
  | .deactivate => .deactivate
  | .reactivate => .reactivate
  | .remove _ => .remove
  | .transferOwnership .. => .transferOwnership
  | .resetPassword _ => .resetPassword

/-- `isInviteRole`. -/
def inviteRole? (rawRole : Text) : Option UserRole :=
  if rawRole = ("admin" : Text) then some .admin
  else if rawRole = ("member" : Text) then some .member
  else none

/-- `PASSWORD_RESET_TTL_MINUTES`. -/
def PASSWORD_RESET_TTL_MINUTES : ℕ := 60

/-- A new reset link. -/
def resetToken (userId issuerId : Text) (ids : Minted) (now : Time) : TokenRow where
  id := ids.tokenId
  userId := some userId
  purpose := .passwordReset
  invitedBy := some issuerId
  tokenHash := ids.tokenHash
  expiresAt := now + PASSWORD_RESET_TTL_MINUTES * 60 * 1000

/-- `replaceResetToken`. -/
def replaceResetToken (userId issuerId : Text) (ids : Minted) (now : Time) (db : Directory) :
    Option Directory :=
  insertToken (resetToken userId issuerId ids now) (revokeResetLinks (.user userId) now db)

/-- The writes of a role change. -/
def changeRole (target : UserRow) (newRole : UserRole) (now : Time) (db : Directory) : Directory :=
  let db := updateUser target.id (fun u => { u with role := newRole }) db
  if newRole ≠ .member then revokeResetLinks (.user target.id) now db
  else downgradeAdminKeysCreatedBy target.id (revokeResetLinks (.issuer target.id none) now
    (revokeInvitesIssuedBy target.id none now db))

/-- The writes of a deactivation. -/
def deactivate (target : UserRow) (now : Time) (db : Directory) : Directory :=
  disableKeysCreatedBy target.id (revokeResetLinks (.issuer target.id none) now
    (revokeResetLinks (.user target.id) now (revokeInvitesIssuedBy target.id none now
      (revokeAllUserSessions target.id
        (updateUser target.id (fun u => { u with disabledAt := some now }) db)))))

/-- The writes of a reactivation. -/
def reactivate (target : UserRow) (db : Directory) : Directory :=
  revokeAllUserSessions target.id (updateUser target.id (fun u => { u with disabledAt := none }) db)

/-- The writes of a removal. -/
def remove (target : UserRow) (now : Time) (db : Directory) : Directory :=
  deleteUser target.id (disableKeysCreatedBy target.id (revokeAllUserSessions target.id
    (revokeInvitesIssuedBy target.id none now db)))

/-- The writes of a transfer: the owner is demoted before the target is promoted. -/
def transfer (owner newOwner : UserRow) (now : Time) (db : Directory) : Directory :=
  let db := revokeResetLinks (.user newOwner.id) now
    (revokeResetLinks (.issuer owner.id (some .admin)) now db)
  let db := updateUser newOwner.id (fun u => { u with role := .owner })
    (updateUser owner.id (fun u => { u with role := .admin }) db)
  moveOwnerRecords owner.id newOwner.id
    (revokeTokens (fun r => r.purpose == .ownerSetup && r.isOpen) now
      (revokeInvitesIssuedBy owner.id (some .admin) now db))

/-- What a call answers: a refusal, or nothing. -/
abbrev Answer := Option AccountRefusal

/-- `runAccountAction`: the rules on the live rows, then `mutate`. -/
def runAccountAction (action : AccountAction) (actorId targetId : Text)
    (mutate : UserRow → UserRow → Directory → Option (Answer × Directory)) (db : Directory) :
    Option (Answer × Directory) :=
  match db.users.find? actorId with
  | none => some (some .actorInactive, db)
  | some actor =>
    if actor.disabled then some (some .actorInactive, db)
    else
      match db.users.find? targetId with
      | none => some (some .notFound, db)
      | some target =>
        (accountActionRefusal action actor target).elim (mutate actor target db)
          fun refusal => some (some refusal, db)

section Actions

variable (toLowerCase : Text → Text)

/-- `removalConfirmed`. -/
def removalConfirmed (confirm email : Text) : Bool := toLowerCase (Text.trim confirm) == email

/-- The `mutate` of each action. -/
def mutate (input : AccountInput) (now : Time) (actor target : UserRow) (db : Directory) :
    Option (Answer × Directory) :=
  match input with
  | .changeRole rawRole =>
    (inviteRole? rawRole).elim (some (some .invalidRole, db)) fun newRole =>
      if target.role = newRole then some (some .unchanged, db)
      else some (none, changeRole target newRole now db)
  | .deactivate => some (none, deactivate target now db)
  | .reactivate => some (none, reactivate target db)
  | .remove confirm =>
    if removalConfirmed toLowerCase confirm target.email then some (none, remove target now db)
    else some (some .confirmMismatch, db)
  | .transferOwnership .. =>
    if ssoLinkWithoutSecondFactor db.toAccounts target.id then
      some (some .ssoLinkWithoutSecondFactor, db)
    else some (none, transfer actor target now db)
  | .resetPassword ids =>
    (replaceResetToken target.id actor.id ids now db).map fun db => (none, db)

/-- What an action refuses before its transaction: an unknown role, and for a transfer the spent
budget and the wrong password, once the rules passed on the rows read without a lock. -/
def earlyRefusal (input : AccountInput) (actorId targetId : Text) (db : Directory) : Answer :=
  match input with
  | .changeRole rawRole => if (inviteRole? rawRole).isNone then some .invalidRole else none
  | .transferOwnership limited passwordOk =>
    (db.users.find? actorId).elim (some .actorInactive) fun actor =>
      if actor.disabled then some .actorInactive
      else (db.users.find? targetId).elim (some .notFound) fun target =>
        (accountActionRefusal .transferOwnership actor target).orElse fun _ =>
          if ssoLinkWithoutSecondFactor db.toAccounts targetId then some .ssoLinkWithoutSecondFactor
          else if limited then some .rateLimited
          else if passwordOk then none else some .wrongPassword
  | .deactivate | .reactivate | .remove _ | .resetPassword _ => none

/-- An account action. -/
def accountAction (input : AccountInput) (actorId targetId : Text) (now : Time) (db : Directory) :
    Option (Answer × Directory) :=
  (earlyRefusal input actorId targetId db).elim
    (runAccountAction input.action actorId targetId (mutate toLowerCase input now) db)
    fun refusal => some (some refusal, db)

end Actions

/-! ## Invitations -/

/-- A call of `createInvitation`: the actor as its session has it, and the normalized address. -/
structure InviteCall where
  actorId : Text
  actorRole : UserRole
  email : Text
  role : UserRole
  expiryDays : ℕ
  ids : Minted
  deriving DecidableEq

/-- `emailHasAccount`. -/
def emailHasAccount (db : Directory) (email : Text) : Bool := db.users.rows.any (·.email == email)

/-- `hasHigherPendingInvite`. -/
def hasHigherPendingInvite (db : Directory) (now : Time) (email : Text) (actorRole : UserRole) :
    Bool :=
  db.tokens.rows.any fun r => openInvite r && decide (now < r.expiresAt) && r.email == some email &&
    r.role.all fun role => !canManage actorRole role

/-- A new invitation. -/
def InviteCall.token (call : InviteCall) (now : Time) : TokenRow where
  id := call.ids.tokenId
  email := some call.email
  purpose := .invite
  tokenHash := call.ids.tokenHash
  role := some call.role
  invitedBy := some call.actorId
  expiresAt := now + call.expiryDays * 24 * 60 * 60 * 1000

/-- `createInvitation`, past the shape of the address. -/
def createInvitation (call : InviteCall) (now : Time) (db : Directory) : Option Directory :=
  if !canManage call.actorRole call.role then some db
  else if emailHasAccount db call.email then some (revokeOpenInvites call.email now db)
  else if hasHigherPendingInvite db now call.email call.actorRole then some db
  else insertToken (call.token now) (revokeOpenInvites call.email now db)

/-- The accepted invitation's account. -/
def acceptedAccount (email : Text) (role : UserRole) (r : TokenRow) (secretHash : Text)
    (ids : Minted) (now : Time) (db : Directory) : Option Directory :=
  (insertUser { id := ids.userId, email := email, role := role } (spendToken r.id now db)).bind
    fun db => (insertCredential (passwordRow ids.userId secretHash ids) db).map fun db =>
      createSession ids.sessionId ids.userId ids.credentialId (revokeOpenInvites email now db)

/-- `acceptInvitation`. -/
def acceptInvitation (tokenHash secretHash : Text) (ids : Minted) (now : Time) (db : Directory) :
    Option Directory :=
  match db.tokens.rows.find? fun r => r.tokenHash == tokenHash && acceptableInvite db now r with
  | none => some db
  | some r =>
    match r.email, r.role with
    | some email, some role =>
      if role = .owner then some db
      else if emailHasAccount db email then some (revokeOpenInvites email now db)
      else acceptedAccount email role r secretHash ids now db
    | _, _ => some db

/-! ## Passwords -/

/-- The reset link a submitted token uses, if it is usable. -/
def resetToSpend (tokenHash : Text) (now : Time) (db : Directory) : Option TokenRow :=
  db.tokens.rows.find? fun r => r.tokenHash == tokenHash && usableReset db now r

/-- `completePasswordReset`. -/
def completePasswordReset (tokenHash secretHash : Text) (ids : Minted) (now : Time)
    (db : Directory) : Option Directory :=
  match resetToSpend tokenHash now db with
  | none => some db
  | some r =>
    r.userId.elim (some (spendToken r.id now db)) fun userId =>
      (replacePassword userId secretHash ids (spendToken r.id now db)).map fun db =>
        createSession ids.sessionId userId ids.credentialId (revokeAllUserSessions userId
          (revokeResetLinks (.issuer userId none) now (revokeInvitesIssuedBy userId none now
            (revokeTokens (fun r => r.userId == some userId && r.isOpen) now db))))

/-- A call of `changePassword` whose current password was verified against `verifiedHash`. -/
structure ChangeCall where
  userId : Text
  credentialId : Text
  verifiedHash : Text
  secretHash : Text
  ids : Minted
  deriving DecidableEq

/-- `changePassword`. -/
def changePassword (call : ChangeCall) (now : Time) (db : Directory) : Option Directory :=
  if ((db.users.find? call.userId).all fun u => u.disabled) ||
    !(db.credentials.find? call.credentialId).any fun c => c.userId == call.userId &&
      c.type == .password && c.secretHash == some call.verifiedHash then some db
  else (insertCredential (passwordRow call.userId call.secretHash call.ids)
      (deleteCredentials (·.id == call.credentialId) (revokeAllUserSessions call.userId db))).map
    fun db => createSession call.ids.sessionId call.userId call.ids.credentialId
      (revokeResetLinks (.user call.userId) now db)

/-! ## Steps -/

/-- One transaction, with its `now()`. -/
inductive Call
  | bootstrapOwner (email : Text) (ids : Minted)
  | issueOwnerSetupLink (ownerEmail : Option Text) (ids : Minted)
  | completeOwnerSetup (tokenHash secretHash : Text) (ids : Minted)
  | account (input : AccountInput) (actorId targetId : Text)
  | createInvitation (call : InviteCall)
  | acceptInvitation (tokenHash secretHash : Text) (ids : Minted)
  | completePasswordReset (tokenHash secretHash : Text) (ids : Minted)
  | changePassword (call : ChangeCall)
  deriving DecidableEq

/-- What the transaction commits; nothing when it fails. -/
def Call.run (toLowerCase : Text → Text) (now : Time) (db : Directory) : Call → Option Directory
  | .bootstrapOwner email ids => Admin.bootstrapOwner email ids now db
  | .issueOwnerSetupLink ownerEmail ids => Admin.issueOwnerSetupLink ownerEmail ids now db
  | .completeOwnerSetup tokenHash secretHash ids =>
    Admin.completeOwnerSetup tokenHash secretHash ids now db
  | .account input actorId targetId =>
    (accountAction toLowerCase input actorId targetId now db).map Prod.snd
  | .createInvitation call => Admin.createInvitation call now db
  | .acceptInvitation tokenHash secretHash ids =>
    Admin.acceptInvitation tokenHash secretHash ids now db
  | .completePasswordReset tokenHash secretHash ids =>
    Admin.completePasswordReset tokenHash secretHash ids now db
  | .changePassword call => Admin.changePassword call now db

/-- One call at a time; a failed one is rolled back. -/
def step (toLowerCase : Text → Text) (db : Directory) (a : Time × Call) : Directory :=
  (a.2.run toLowerCase a.1 db).getD db

end BunMail.Users.Admin
