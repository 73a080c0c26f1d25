import BunMail.Lib.Run
import BunMail.Lib.Transactions
import BunMail.Users.Schema

/-!
# API keys and the accounts that created them

Creating, revoking and promoting keys, and the account actions that reach the keys of an account,
statement by statement over the tables `users` and `api_keys`.

An `UPDATE` of keys picks its rows from what is committed when it starts; it then waits for each of
them and evaluates its `WHERE` again on the row, and on the subqueries it started with.
-/

namespace BunMail.ApiKeys

open Transactions Users

/-! ## The tables -/

/-- `API_KEY_DISABLED_REASONS`. -/
inductive DisabledReason
  | revoked | creatorDeactivated | creatorRemoved
  deriving DecidableEq

/-- A row of `api_keys`, with the account that created it. -/
structure ApiKeyRow where
  id : Text
  creator : Option Text
  isActive : Bool := true
  isAdmin : Bool := false
  disabledReason : Option DisabledReason := none
  deriving DecidableEq

/-- The two tables. -/
structure Tables where
  users : Table UserRow.id
  apiKeys : Table ApiKeyRow.id

/-- `created_by_user_id`: null once the creator's row is deleted (`ON DELETE SET NULL`). -/
def createdByUserId (db : Tables) (k : ApiKeyRow) : Option Text :=
  k.creator.filter fun c => db.users.keys.contains c

/-- `ADMIN_ROLES`. -/
def adminRole : UserRole → Bool
  | .owner | .admin => true
  | .member => false

/-- The rewrite of the keys `p` selects. -/
def rewrite (p : ApiKeyRow → Bool) (f : ApiKeyRow → ApiKeyRow) (k : ApiKeyRow) : ApiKeyRow :=
  if p k then { f k with id := k.id, creator := k.creator } else k

theorem rewrite_id (p : ApiKeyRow → Bool) (f : ApiKeyRow → ApiKeyRow) (k : ApiKeyRow) :
    (rewrite p f k).id = k.id := by
  unfold rewrite
  split_ifs <;> rfl

/-- `UPDATE api_keys`, which changes neither ids nor creators. -/
def updateKeys (p : ApiKeyRow → Bool) (f : ApiKeyRow → ApiKeyRow) (db : Tables) : Tables :=
  { db with apiKeys := db.apiKeys.updateAll (rewrite p f) (rewrite_id p f) }

/-- `INSERT` of a key whose id is new. -/
def insertKey (row : ApiKeyRow) (db : Tables) : Tables :=
  { db with apiKeys := db.apiKeys.upsert row (fun old => old) fun _ _ => rfl }

/-- The rewrite of one account. -/
def rewriteUser (id : Text) (f : UserRow → UserRow) (u : UserRow) : UserRow :=
  if u.id = id then { f u with id := u.id } else u

theorem rewriteUser_id (id : Text) (f : UserRow → UserRow) (u : UserRow) :
    (rewriteUser id f u).id = u.id := by
  unfold rewriteUser
  split_ifs <;> rfl

/-- `UPDATE users ... WHERE id = ...`. -/
def updateUser (id : Text) (f : UserRow → UserRow) (db : Tables) : Tables :=
  { db with users := db.users.updateAll (rewriteUser id f) (rewriteUser_id id f) }

/-- `DELETE` of an account. -/
def deleteUser (id : Text) (db : Tables) : Tables :=
  { db with users := db.users.deleteWhere (·.id == id) }

/-! ## Updates of one key -/

/-- The calls that update one key. -/
inductive KeyUpdate
  /-- `revokeApiKey`; with a scope, only a key of that account. -/
  | revoke (scope : Option Text)
  /-- `setApiKeyAdmin`. -/
  | setAdmin (isAdmin : Bool)
  deriving DecidableEq

/-- The accounts that may hold an admin key: the subquery of a promotion. -/
def activeAdmins (db : Tables) : List Text :=
  (db.users.rows.filter fun u => adminRole u.role && !u.disabled).map (·.id)

/-- `creatorMayHoldAdmin`, for the accounts `admins` that the subquery found. -/
def creatorMayHoldAdmin (admins : List Text) (createdBy : Option Text) : Bool :=
  createdBy.all fun c => admins.contains c

/-- The `WHERE` of the update, past the key's id. -/
def KeyUpdate.selects (admins : List Text) (createdBy : Option Text) : KeyUpdate → Bool
  | .revoke scope => scope.all fun a => createdBy == some a
  | .setAdmin isAdmin => !isAdmin || creatorMayHoldAdmin admins createdBy

/-- What it sets. -/
def KeyUpdate.set : KeyUpdate → ApiKeyRow → ApiKeyRow
  | .revoke _, k =>
    { k with isActive := false, disabledReason := k.disabledReason.orElse fun _ => some .revoked }
  | .setAdmin isAdmin, k => { k with isAdmin := isAdmin }

/-! ## Account actions -/

/-- An account action with its own input. -/
inductive Mutation
  | changeRole (newRole : UserRole)
  | deactivate (now : Time)
  | reactivate
  | remove
  | transferOwnership
  deriving DecidableEq

/-- Its `AccountAction`. -/
def Mutation.action : Mutation → AccountAction
  | .changeRole _ => .changeRole
  | .deactivate _ => .deactivate
  | .reactivate => .reactivate
  | .remove => .remove
  | .transferOwnership => .transferOwnership

/-- The `WHERE` of `downgradeAdminKeysCreatedBy` and `disableKeysCreatedBy`, past the creator; the
other actions update no key. -/
def Mutation.selectsKey : Mutation → ApiKeyRow → Bool
  | .changeRole .member, k => k.isAdmin
  | .deactivate _, k | .remove, k => k.isActive
  | .changeRole _, _ | .reactivate, _ | .transferOwnership, _ => false

/-- What they set. -/
def Mutation.setKey : Mutation → ApiKeyRow → ApiKeyRow
  | .changeRole _, k => { k with isAdmin := false }
  | .deactivate _, k => { k with isActive := false, disabledReason := some .creatorDeactivated }
  | .remove, k => { k with isActive := false, disabledReason := some .creatorRemoved }
  | .reactivate, k | .transferOwnership, k => k

/-- The keys the update of a target's keys picks when it starts. -/
def Mutation.candidates (m : Mutation) (db : Tables) (targetId : Text) : List Text :=
  (db.apiKeys.rows.filter fun k => createdByUserId db k == some targetId && m.selectsKey k).map
    (·.id)

/-- The update, over the candidates that match still. -/
def Mutation.updateKeys (m : Mutation) (targetId : Text) (candidates : List Text) (db : Tables) :
    Tables :=
  ApiKeys.updateKeys (fun k => decide (k.id ∈ candidates) &&
    createdByUserId db k == some targetId && m.selectsKey k) m.setKey db

/-- The writes to the accounts. -/
def Mutation.updateUsers (m : Mutation) (actorId targetId : Text) : Tables → Tables :=
  match m with
  | .changeRole newRole => updateUser targetId fun u => { u with role := newRole }
  | .deactivate now => updateUser targetId fun u => { u with disabledAt := some now }
  | .reactivate => updateUser targetId fun u => { u with disabledAt := none }
  | .remove => deleteUser targetId
  | .transferOwnership => fun db =>
    updateUser targetId (fun u => { u with role := .owner })
      (updateUser actorId (fun u => { u with role := .admin }) db)

/-- The submitted role is one an invitation could grant. -/
def Mutation.valid : Mutation → Bool
  | .changeRole newRole => newRole != .owner
  | .deactivate _ | .reactivate | .remove | .transferOwnership => true

/-- What the action refuses on the locked rows. -/
def Mutation.refuses (m : Mutation) (actor target : UserRow) : Bool :=
  (accountActionRefusal m.action actor target).isSome ||
    match m with
    | .changeRole newRole => target.role == newRole
    | .deactivate _ | .reactivate | .remove | .transferOwnership => false

/-! ## The transactions -/

/-- What a transaction locks. -/
inductive RowKey
  | ownerLock
  | user (id : Text)
  | apiKey (id : Text)
  deriving DecidableEq

/-- A call of `createApiKey`, with the id it mints. -/
structure CreateCall where
  id : Text
  creator : Option Text
  isAdmin : Bool
  deriving DecidableEq

/-- How far a call has come. -/
inductive Phase
  /-- `createApiKey` holds its creator's row `FOR SHARE`. -/
  | creatorLocked (call : CreateCall) (creator : UserRow)
  /-- The key is inserted. -/
  | keyInserted (call : CreateCall) (isAdmin : Bool)
  /-- The `UPDATE` of one key has started and picked it; `admins` is its subquery. -/
  | keyPicked (update : KeyUpdate) (id : Text) (admins : List Text)
  | keyUpdated (update : KeyUpdate) (id : Text)
  /-- The account action holds the owner lock, then the actor's row, then the target's. -/
  | owned (m : Mutation) (actorId targetId : Text)
  | actorLocked (m : Mutation) (actor : UserRow) (targetId : Text)
  | targetLocked (m : Mutation) (actor target : UserRow)
  /-- The update of the target's keys has started. -/
  | keysPicked (m : Mutation) (actor target : UserRow) (candidates : List Text)
  | keysUpdated (m : Mutation) (actor target : UserRow) (candidates : List Text)
  /-- `DELETE FROM users`, with the keys whose creator it clears. -/
  | userDeleted (actor target : UserRow) (candidates cleared : List Text)
  | ended
  deriving DecidableEq

/-- The rows of an account action. -/
def partyLocks (actor target : UserRow) : List (RowKey × Mode) :=
  [(.ownerLock, .update), (.user actor.id, .noKeyUpdate), (.user target.id, .noKeyUpdate)]

/-- The keys an update has locked. -/
def keyLocks (ids : List Text) : List (RowKey × Mode) :=
  ids.map fun id => (.apiKey id, .noKeyUpdate)

/-- The locks of a phase. -/
def locks : Phase → List (RowKey × Mode)
  | .creatorLocked _ creator => [(.user creator.id, .share)]
  | .keyInserted call _ =>
    (.apiKey call.id, .update) :: call.creator.toList.map fun c => (.user c, .share)
  | .keyUpdated _ id => [(.apiKey id, .noKeyUpdate)]
  | .owned .. => [(.ownerLock, .update)]
  | .actorLocked _ actor _ => [(.ownerLock, .update), (.user actor.id, .noKeyUpdate)]
  | .targetLocked _ actor target | .keysPicked _ actor target _ => partyLocks actor target
  | .keysUpdated _ actor target candidates => partyLocks actor target ++ keyLocks candidates
  | .userDeleted actor target candidates cleared =>
    (.user target.id, .update) :: partyLocks actor target ++ keyLocks (candidates ++ cleared)
  | .keyPicked .. | .ended => []

/-- The uncommitted writes of a phase. -/
def writes : Phase → Tables → Tables
  | .keyInserted call isAdmin =>
    insertKey { id := call.id, creator := call.creator, isAdmin := isAdmin }
  | .keyUpdated update id => updateKeys (·.id == id) update.set
  | .keysUpdated m actor target candidates => fun db =>
    m.updateUsers actor.id target.id (m.updateKeys target.id candidates db)
  | .userDeleted actor target candidates _ => fun db =>
    Mutation.remove.updateUsers actor.id target.id
      (Mutation.remove.updateKeys target.id candidates db)
  | .creatorLocked .. | .keyPicked .. | .owned .. | .actorLocked .. | .targetLocked ..
  | .keysPicked .. | .ended => id

/-- The committed tables and the calls so far. -/
abbrev State := Store Tables Phase

/-- The calls. -/
inductive Call
  | createApiKey (call : CreateCall)
  | updateKey (update : KeyUpdate) (id : Text)
  | runAccountAction (m : Mutation) (actorId targetId : Text)
  deriving DecidableEq

/-- A call that starts, one statement of a call, or its failure. -/
inductive Action
  | start (t : ℕ) (call : Call)
  /-- The call `t` goes on; `ok` answers what these tables do not: the confirmation of a removal, the
  password and the owner rule of a transfer. -/
  | next (t : ℕ) (ok : Bool)
  /-- A statement of `t` fails, or a deadlock ends it. -/
  | fail (t : ℕ)
  deriving DecidableEq

/-- The call `t` locks the row of `userId`, and goes on from what it reads there. -/
def lockUser (s : State) (t : ℕ) (userId : Text) (p : UserRow → Phase) : State :=
  (s.db.users.find? userId).elim (s.put t .ended) fun row => s.enter locks t (p row)

/-- `INSERT` of the key. -/
def insert (s : State) (t : ℕ) (call : CreateCall) (isAdmin : Bool) : State :=
  if s.db.apiKeys.keys.contains call.id then s.put t .ended
  else s.enter locks t (.keyInserted call isAdmin)

/-- The `WHERE` of the update of one key, on its committed row. -/
def selectsRow (db : Tables) (admins : List Text) (update : KeyUpdate) (id : Text) : Bool :=
  (db.apiKeys.find? id).any fun k => update.selects admins (createdByUserId db k)

/-- The first statement of a call. -/
def start (s : State) (t : ℕ) : Call → State
  | .createApiKey call =>
    call.creator.elim (insert s t call call.isAdmin) fun c => lockUser s t c (.creatorLocked call)
  | .updateKey update id =>
    s.put t (if selectsRow s.db (activeAdmins s.db) update id then
      .keyPicked update id (activeAdmins s.db) else .ended)
  | .runAccountAction m actorId targetId =>
    if m.valid then s.enter locks t (.owned m actorId targetId) else s.put t .ended

/-- The next statement of the call `t`, in the phase `p`. -/
def nextStatement (s : State) (t : ℕ) (ok : Bool) : Phase → State
  | .creatorLocked call creator =>
    if creator.disabled then s.put t .ended
    else insert s t call (call.isAdmin && adminRole creator.role)
  | .keyInserted call isAdmin => s.commit writes t (.keyInserted call isAdmin) .ended
  | .keyPicked update id admins =>
    if s.grants locks t (locks (.keyUpdated update id)) && !selectsRow s.db admins update id then
      s.put t .ended
    else s.enter locks t (.keyUpdated update id)
  | .keyUpdated update id => s.commit writes t (.keyUpdated update id) .ended
  | .owned m actorId targetId => lockUser s t actorId fun actor => .actorLocked m actor targetId
  | .actorLocked m actor targetId =>
    if actor.disabled then s.put t .ended
    else lockUser s t targetId fun target => .targetLocked m actor target
  | .targetLocked m actor target =>
    s.put t (if m.refuses actor target || !ok then .ended
      else .keysPicked m actor target (m.candidates s.db target.id))
  | .keysPicked m actor target candidates => s.enter locks t (.keysUpdated m actor target candidates)
  | .keysUpdated m actor target candidates =>
    if m = .remove then
      s.enter locks t (.userDeleted actor target candidates
        ((s.db.apiKeys.rows.filter fun k => createdByUserId s.db k == some target.id).map (·.id)))
    else s.commit writes t (.keysUpdated m actor target candidates) .ended
  | .userDeleted actor target candidates cleared =>
    s.commit writes t (.userDeleted actor target candidates cleared) .ended
  | .ended => s

/-- One action. -/
def step (s : State) : Action → State
  | .start t call => if (s.phase? t).isSome then s else start s t call
  | .next t ok => (s.phase? t).elim s (nextStatement s t ok)
  | .fail t => if (s.phase? t).isSome then s.put t .ended else s

end BunMail.ApiKeys
