import BunMail.Lib.Drafts
import BunMail.Users.Directory

/-!
# Invitations, statement by statement

`createInvitation`, `resendInvitation`, `revokeInvitation`, `acceptInvitation`, `revokeInvitesIssuedBy`
and what creates, changes and removes accounts.  Issuing and accepting take the advisory lock of the
address first; revoking and the account actions do not.  `now()` is the start of a transaction, which
may be before it is granted the lock.

What a `SELECT` has found and its transaction's locks keep is written down as a write that changes
nothing (`Write.rely`).
-/

namespace BunMail.Users.Invite

open Transactions
open Admin (TokenRow)

/-! ## The tables -/

/-- Why an invitation is revoked. -/
inductive Reason
  /-- `replaceInvite` issues another one. -/
  | replaced (actorRole : UserRole)
  /-- `revokeInvitation`. -/
  | revoked (actorRole : UserRole)
  /-- An account holds the address. -/
  | superseded
  /-- `revokeInvitesIssuedBy`. -/
  | issuer
  deriving DecidableEq

/-- The role of the actor it is revoked for. -/
def Reason.actorRole : Reason → Option UserRole
  | .replaced actorRole | .revoked actorRole => some actorRole
  | .superseded | .issuer => none

/-- What the tables tell, once it is committed. -/
inductive Event
  | issued (row : TokenRow)
  /-- The invitation is spent, and its account created. -/
  | accepted (id : Text) (account : UserRow) (at' : Time)
  | revoked (id : Text) (reason : Reason) (at' : Time)
  /-- An account is created without an invitation. -/
  | created (account : UserRow)
  | removed (email : Text)
  deriving DecidableEq

/-- The accounts by their addresses, the tokens of purpose `invite`, the clock and the log. -/
structure Db where
  users : Table UserRow.email
  tokens : Table TokenRow.id
  now : Time
  log : List Event

/-- `emailHasAccount`. -/
def emailHasAccount (db : Db) (email : Text) : Bool := (db.users.find? email).isSome

/-- `canGrantRole`. -/
def canGrantRole (actorRole role : UserRole) : Bool := (grantableRoles actorRole).any (· == role)

/-- `isInviteRole`. -/
def isInviteRole (role : UserRole) : Bool := role == .admin || role == .member

/-- `liveInvite`. -/
def liveInvite (now : Time) (r : TokenRow) : Bool := r.isOpen && decide (now < r.expiresAt)

/-- `inviterStillGrants`. -/
def inviterStillGrants (db : Db) (r : TokenRow) : Bool :=
  db.users.rows.any fun inviter => r.invitedBy == some inviter.id && !inviter.disabled &&
    r.role.any (canGrantRole inviter.role)

/-- `acceptableInvite`. -/
def acceptableInvite (db : Db) (now : Time) (r : TokenRow) : Bool := liveInvite now r && inviterStillGrants db r

/-- `hasHigherPendingInvite`. -/
def hasHigherPendingInvite (db : Db) (now : Time) (email : Text) (actorRole : UserRole) : Bool :=
  db.tokens.rows.any fun r => liveInvite now r && r.email == some email &&
    r.role.all fun role => !canGrantRole actorRole role

/-- `findPendingById`. -/
def findPendingById (db : Db) (now : Time) (id : Text) : Option (Text × UserRole) :=
  ((db.tokens.find? id).filter (liveInvite now)).bind fun r => r.email.bind fun email =>
    (r.role.filter isInviteRole).map fun role => (email, role)

/-- The open invitations an `UPDATE` finds. -/
def openIds (db : Db) (p : TokenRow → Bool) : List Text :=
  (db.tokens.rows.filter fun r => r.isOpen && p r).map (·.id)

/-! ## Writes -/

/-- What a `SELECT` has found. -/
inductive Reliance
  /-- `hasHigherPendingInvite` is false. -/
  | replaceable (email : Text) (actorRole : UserRole) (at' : Time)
  /-- No invitation of the address is open. -/
  | noneOpen (email : Text)
  /-- The `UPDATE` of `acceptInvitation` returned the invitation. -/
  | spendable (id email : Text) (role : UserRole) (at' : Time)
  deriving DecidableEq

inductive Write
  | rely (found : Reliance)
  | revoke (id : Text) (reason : Reason) (at' : Time)
  | insertToken (row : TokenRow)
  /-- `used_at` of the invitation, and the account. -/
  | accept (id : Text) (account : UserRow) (at' : Time)
  | insertUser (account : UserRow)
  | updateUser (email : Text) (role : UserRole) (disabledAt : Option Time)
  /-- The account is deleted, and `invited_by` of its invitations set to null. -/
  | removeUser (email : Text)
  deriving DecidableEq

/-- What a transaction locks: the advisory lock of an address, invitations, and the accounts; the
last two also stand for the entries of their unique indexes. -/
inductive RowKey
  | address (email : Text)
  | token (id : Text)
  | tokenHash (hash : Text)
  | user (email : Text)
  deriving DecidableEq

/-- The rows a write acts on. -/
def Write.rights : Write → List RowKey
  | .rely (.replaceable email _ _) | .rely (.noneOpen email) => [.address email]
  | .rely (.spendable id _ _ _) | .revoke id _ _ => [.token id]
  | .insertToken row => .token row.id :: .tokenHash row.tokenHash :: row.email.toList.map .address
  | .accept id account _ => [.token id, .user account.email]
  | .insertUser account => [.user account.email]
  | .updateUser email _ _ | .removeUser email => [.user email]

/-- The row `id` as `f` makes it. -/
def rewrite (id : Text) (f : TokenRow → TokenRow) (r : TokenRow) : TokenRow :=
  if r.id = id then { f r with id := r.id } else r

theorem rewrite_id (id : Text) (f : TokenRow → TokenRow) (r : TokenRow) : (rewrite id f r).id = r.id := by
  unfold rewrite
  split_ifs <;> rfl

/-- `SET used_at`, `SET revoked_at`. -/
def Db.rewriteToken (db : Db) (id : Text) (f : TokenRow → TokenRow) : Table TokenRow.id :=
  db.tokens.updateAll (rewrite id f) (rewrite_id id f)

def Db.putUser (db : Db) (account : UserRow) : Table UserRow.email :=
  db.users.upsert account (fun _ => account) fun _ h => h.symm

def changed (email : Text) (role : UserRole) (disabledAt : Option Time) (u : UserRow) : UserRow :=
  if u.email = email then { u with role := role, disabledAt := disabledAt } else u

theorem changed_email (email : Text) (role : UserRole) (disabledAt : Option Time) (u : UserRow) :
    (changed email role disabledAt u).email = u.email := by
  unfold changed
  split_ifs <;> rfl

/-- `ON DELETE SET NULL`. -/
def orphan (ids : List Text) (r : TokenRow) : TokenRow :=
  if r.invitedBy.any ids.contains then { r with invitedBy := none } else r

theorem orphan_id (ids : List Text) (r : TokenRow) : (orphan ids r).id = r.id := by
  unfold orphan
  split_ifs <;> rfl

def Write.apply : Write → Db → Db
  | .rely _, db => db
  | .revoke id reason at', db =>
    { db with
      tokens := db.rewriteToken id fun r => { r with revokedAt := some at' }
      log := db.log ++ [.revoked id reason at'] }
  | .insertToken row, db =>
    { db with
      tokens := db.tokens.upsert row (fun _ => row) fun _ h => h.symm
      log := db.log ++ [.issued { row with invitedBy := none }] }
  | .accept id account at', db =>
    { db with
      tokens := db.rewriteToken id fun r => { r with usedAt := some at' }
      users := db.putUser account
      log := db.log ++ [.accepted id account at'] }
  | .insertUser account, db =>
    { db with users := db.putUser account, log := db.log ++ [.created account] }
  | .updateUser email role disabledAt, db =>
    { db with users := db.users.updateAll (changed email role disabledAt) (changed_email email role disabledAt) }
  | .removeUser email, db =>
    { db with
      users := db.users.deleteWhere (·.email == email)
      tokens := db.tokens.updateAll (orphan ((db.users.find? email).toList.map (·.id))) (orphan_id _)
      log := db.log ++ [.removed email] }

/-! ## The calls -/

/-- `replaceInvite`, with the ids it mints; a resend re-reads the invitation that it replaces. -/
structure Replacement where
  actorId : Text
  actorRole : UserRole
  email : Text
  role : UserRole
  resends : Option Text
  expiryDays : ℕ
  tokenId : Text
  tokenHash : Text
  deriving DecidableEq

/-- The new invitation. -/
def Replacement.token (rep : Replacement) (startedAt : Time) : TokenRow where
  id := rep.tokenId
  email := some rep.email
  purpose := .invite
  tokenHash := rep.tokenHash
  role := some rep.role
  invitedBy := some rep.actorId
  expiresAt := startedAt + rep.expiryDays * 24 * 60 * 60 * 1000

/-- What `acceptInvitation` is called with, and the id it mints. -/
structure Acceptance where
  tokenHash : Text
  userId : Text
  deriving DecidableEq

/-- What an account action does to its target, and to the invitations that the target issued. -/
inductive AccountChange
  /-- The accounts with these addresses get these roles and deactivations; none by a password reset. -/
  | update (changes : List (Text × UserRole × Option Time))
  | remove
  deriving DecidableEq

inductive Answer
  | issued | revoked | accepted | accountExists | roleNotAllowed | invalidEmail | pendingHigherRole | notFound
  | invalid | done | failed
  deriving DecidableEq

/-- Something may have been changed. -/
def Answer.changes : Answer → Bool
  | .issued | .revoked | .accepted | .accountExists | .done => true
  | .roleNotAllowed | .invalidEmail | .pendingHigherRole | .notFound | .invalid | .failed => false

/-- How far a call has come. -/
inductive Point
  /-- The transaction has begun, and waits for the lock of the address. -/
  | replacing (rep : Replacement) (startedAt : Time)
  | locked (rep : Replacement) (startedAt : Time)
  /-- A resend has found its invitation again. -/
  | pending (rep : Replacement) (startedAt : Time)
  | unheld (rep : Replacement) (startedAt : Time)
  | replaceable (rep : Replacement) (startedAt : Time)
  | cleared (rep : Replacement) (startedAt : Time)
  /-- An account holds the address. -/
  | taken (email : Text) (startedAt : Time)
  /-- `revokeInvitation` has read the invitation; its transaction has begun, or not yet. -/
  | revoking (id : Text) (actorRole role : UserRole) (startedAt : Option Time)
  /-- `findLiveInvitation` has found the address; the password is hashed. -/
  | hashing (call : Acceptance) (email : Text)
  | accepting (call : Acceptance) (email : Text) (startedAt : Time)
  | acceptLocked (call : Acceptance) (email : Text) (startedAt : Time)
  | acceptUnheld (call : Acceptance) (startedAt : Time)
  | spent (call : Acceptance) (id email : Text) (role : UserRole) (startedAt : Time)
  | entered (email : Text) (startedAt : Time)
  /-- An account action has begun. -/
  | acting (account : UserRow) (change : AccountChange) (granting : Option UserRole) (startedAt : Time)
  | updated (account : UserRow) (change : AccountChange) (granting : Option UserRole) (startedAt : Time)
  | disowned (account : UserRow) (change : AccountChange)
  | finishing (answer : Answer)
  | ended (answer : Answer)
  deriving DecidableEq

abbrev InviteDraft := Draft RowKey Write Point

abbrev State := Store Db InviteDraft

inductive Call
  /-- `createInvitation` of a normalized address, with the verdict of `isInvitableEmail`. -/
  | createInvitation (rep : Replacement) (invitable : Bool)
  | resendInvitation (rep : Replacement) (id : Text)
  | revokeInvitation (actorRole : UserRole) (id : Text)
  | acceptInvitation (call : Acceptance)
  /-- The owner's bootstrap. -/
  | createAccount (account : UserRow)
  /-- An account action with `revokeInvitesIssuedBy`, of one role where `granting` names it. -/
  | accountAction (email : Text) (change : AccountChange) (granting : Option UserRole)
  deriving DecidableEq

/-- A call that starts, one statement of a call, its failure, or time. -/
inductive Action
  | start (t : ℕ) (call : Call)
  | next (t : ℕ)
  | fail (t : ℕ)
  | tick (ms : ℕ)
  deriving DecidableEq

/-! ## Steps -/

def tokenLocks (ids : List Text) : List (RowKey × Mode) := ids.map fun id => (.token id, .noKeyUpdate)

def revokeAll (ids : List Text) (reason : Reason) (at' : Time) : List Write := ids.map (.revoke · reason at')

/-- `UPDATE` of the open invitations `p` selects, as its draft sees them. -/
def revokeWhere (s : State) (t : ℕ) (p : InviteDraft) (point : Point) (select : TokenRow → Bool)
    (reason : Reason) (at' : Time) (found : List Reliance) : State :=
  let ids := openIds (p.view Write.apply s.db) select
  s.write t p point (tokenLocks ids) (revokeAll ids reason at' ++ found.map .rely)

/-- A unique index of `user_tokens` refuses the row. -/
def violatesToken (db : Db) (row : TokenRow) : Bool :=
  db.tokens.keys.contains row.id || db.tokens.rows.any (·.tokenHash == row.tokenHash)

/-- A unique index of `users` refuses the row. -/
def violatesUser (db : Db) (row : UserRow) : Bool :=
  emailHasAccount db row.email || db.users.rows.any fun u =>
    u.id == row.id || (u.role == .owner && row.role == .owner)

/-- `INSERT` of the new invitation: its issuer is there. -/
def insertInvite (s : State) (t : ℕ) (p : InviteDraft) (rep : Replacement) (startedAt : Time) : State :=
  let db := p.view Write.apply s.db
  match db.users.rows.find? (·.id == rep.actorId) with
  | none => s.leave t (.ended .failed)
  | some actor =>
    if violatesToken db (rep.token startedAt) then s.leave t (.ended .failed)
    else
      s.write t p (.finishing .issued)
        [(.user actor.email, .keyShare), (.token rep.tokenId, .update), (.tokenHash rep.tokenHash, .update)]
        [.insertToken (rep.token startedAt)]

/-- The `UPDATE` that spends the invitation. -/
def spend (s : State) (t : ℕ) (p : InviteDraft) (call : Acceptance) (startedAt : Time) : State :=
  let db := p.view Write.apply s.db
  match db.tokens.rows.find? fun r => r.tokenHash == call.tokenHash && acceptableInvite db startedAt r with
  | none => s.leave t (.ended .invalid)
  | some r =>
    match r.email, r.role with
    | some email, some role =>
      if isInviteRole role then
        s.write t p (.spent call r.id email role startedAt) [(.token r.id, .noKeyUpdate)]
          [.rely (.spendable r.id email role startedAt)]
      else s.leave t (.ended .invalid)
    | _, _ => s.leave t (.ended .invalid)

/-- The next statement of the draft `p`. -/
def nextStatement (s : State) (t : ℕ) (p : InviteDraft) : State :=
  let db := p.view Write.apply s.db
  match p.point with
  | .replacing rep startedAt => s.write t p (.locked rep startedAt) [(.address rep.email, .update)] []
  | .locked rep startedAt =>
    if rep.resends.all fun id => (findPendingById db startedAt id).isSome then s.go t p (.pending rep startedAt)
    else s.leave t (.ended .notFound)
  | .pending rep startedAt =>
    if emailHasAccount db rep.email then s.go t p (.taken rep.email startedAt)
    else s.go t p (.unheld rep startedAt)
  | .unheld rep startedAt =>
    if hasHigherPendingInvite db startedAt rep.email rep.actorRole then s.leave t (.ended .pendingHigherRole)
    else
      s.write t p (.replaceable rep startedAt) []
        [.rely (.replaceable rep.email rep.actorRole startedAt)]
  | .replaceable rep startedAt =>
    revokeWhere s t p (.cleared rep startedAt) (·.email == some rep.email) (.replaced rep.actorRole) startedAt
      [.noneOpen rep.email]
  | .cleared rep startedAt => insertInvite s t p rep startedAt
  | .taken email startedAt =>
    revokeWhere s t p (.finishing .accountExists) (·.email == some email) .superseded startedAt []
  | .revoking id actorRole role none => s.go t p (.revoking id actorRole role (some s.db.now))
  | .revoking id actorRole _ (some startedAt) =>
    if (db.tokens.find? id).any (·.isOpen) then
      s.write t p (.finishing .revoked) [(.token id, .noKeyUpdate)] [.revoke id (.revoked actorRole) startedAt]
    else s.leave t (.ended .notFound)
  | .hashing call email => s.go t p (.accepting call email s.db.now)
  | .accepting call email startedAt =>
    s.write t p (.acceptLocked call email startedAt) [(.address email, .update)] []
  | .acceptLocked call email startedAt =>
    if emailHasAccount db email then s.go t p (.taken email startedAt)
    else s.go t p (.acceptUnheld call startedAt)
  | .acceptUnheld call startedAt => spend s t p call startedAt
  | .spent call id email role startedAt =>
    -- a unique violation is answered `account_exists`, and rolled back
    if violatesUser db ⟨call.userId, email, role, none⟩ then s.leave t (.ended .accountExists)
    else
      s.write t p (.entered email startedAt) [(.user email, .update)]
        [.accept id ⟨call.userId, email, role, none⟩ startedAt]
  | .entered email startedAt =>
    revokeWhere s t p (.finishing .accepted) (·.email == some email) .superseded startedAt []
  | .acting account change granting startedAt =>
    match change with
    | .update changes =>
      s.write t p (.updated account change granting startedAt)
        (changes.map fun (email, _, _) => (.user email, .noKeyUpdate))
        (changes.map fun (email, role, disabledAt) => .updateUser email role disabledAt)
    | .remove => s.go t p (.updated account change granting startedAt)
  | .updated account change granting startedAt =>
    revokeWhere s t p (.disowned account change)
      (fun r => r.invitedBy == some account.id && granting.all fun role => r.role == some role) .issuer
      startedAt []
  | .disowned account change =>
    match change with
    | .update _ => s.go t p (.finishing .done)
    | .remove =>
      s.write t p (.finishing .done)
        ((.user account.email, .update) ::
          tokenLocks ((db.tokens.rows.filter fun r => r.invitedBy == some account.id).map (·.id)))
        [.removeUser account.email]
  | .finishing answer => s.finish Write.apply t p (.ended answer)
  | .ended _ => s

/-- The first statement of a call. -/
def start (s : State) (t : ℕ) : Call → State
  | .createInvitation rep invitable =>
    if !invitable then s.leave t (.ended .invalidEmail)
    else if !canGrantRole rep.actorRole rep.role then s.leave t (.ended .roleNotAllowed)
    else s.leave t (.replacing { rep with resends := none } s.db.now)
  | .resendInvitation rep id =>
    match findPendingById s.db s.db.now id with
    | none => s.leave t (.ended .notFound)
    | some (email, role) =>
      if canGrantRole rep.actorRole role then
        s.leave t (.replacing { rep with email := email, role := role, resends := some id } s.db.now)
      else s.leave t (.ended .roleNotAllowed)
  | .revokeInvitation actorRole id =>
    match findPendingById s.db s.db.now id with
    | none => s.leave t (.ended .notFound)
    | some (_, role) =>
      if canGrantRole actorRole role then s.leave t (.revoking id actorRole role none)
      else s.leave t (.ended .roleNotAllowed)
  | .acceptInvitation call =>
    match s.db.tokens.rows.find? fun r => r.tokenHash == call.tokenHash && acceptableInvite s.db s.db.now r with
    | none => s.leave t (.ended .invalid)
    | some r =>
      match r.email, r.role.any isInviteRole with
      | some email, true => s.leave t (.hashing call email)
      | _, _ => s.leave t (.ended .invalid)
  | .createAccount account =>
    if violatesUser s.db account then s.leave t (.ended .failed)
    else s.enter Draft.held t ⟨.finishing .done, [(.user account.email, .update)], [.insertUser account]⟩
  | .accountAction email change granting =>
    match s.db.users.find? email with
    | none => s.leave t (.ended .failed)
    | some account => s.leave t (.acting account change granting s.db.now)

/-- The call has ended. -/
def Point.isEnded : Point → Bool
  | .ended _ => true
  | _ => false

/-- One action. -/
def step (s : State) : Action → State
  | .start t call => if (s.phase? t).isSome then s else start s t call
  | .next t => (s.phase? t).elim s (nextStatement s t)
  | .fail t => if (s.phase? t).any fun p => !p.point.isEnded then s.leave t (.ended .failed) else s
  | .tick ms => { s with db := { s.db with now := s.db.now + ms } }

/-- No account and no invitation yet. -/
def init (now : Time) : State := Store.init ⟨Table.empty, Table.empty, now, []⟩

end BunMail.Users.Invite
