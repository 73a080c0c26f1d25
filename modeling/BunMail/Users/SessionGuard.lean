import BunMail.Lib.Drafts
import BunMail.Users.SessionChains

/-!
# The session guard, statement by statement

A request that presents a session's token: `findActiveSession`, `findSessionBySupersededToken` when it
found nothing, the revocation of a reused token's user, and `rotateSession` when it is due.  Beside them
whatever else opens, elevates, raises and deletes sessions, in any order.  A token is its hash; `now()` is
the start of a transaction.

What a locking `SELECT` or an `UPDATE` has found is written down as a write that changes nothing
(`Write.rely`).
-/

namespace BunMail.Users.Guard

open Transactions

/-! ## The policy -/

/-- `TwoFactorPolicy`. -/
inductive TwoFactorPolicy
  | none | owner | admin
  deriving DecidableEq, Repr

/-- `twoFactorRequired`. -/
def twoFactorRequired (policy : TwoFactorPolicy) (role : UserRole) : Bool :=
  match policy with
  | .owner => role == .owner
  | .admin => role == .owner || role == .admin
  | .none => false

/-- `TWO_FACTOR_PAGE`. -/
def TWO_FACTOR_PAGE : Text := "/dashboard/account/two-factor".toList

/-- `PASSKEYS_PAGE`. -/
def PASSKEYS_PAGE : Text := "/dashboard/account/passkeys".toList

/-- `isTwoFactorEnrolmentPath`. -/
def isTwoFactorEnrolmentPath (path : Text) : Bool :=
  [TWO_FACTOR_PAGE, PASSKEYS_PAGE].any fun page => path == page || (page ++ ['/']).isPrefixOf path

/-! ## The tables -/

/-- A row of `session_token_history`. -/
structure HistoryRow where
  tokenHash : Text
  sessionId : Text
  supersededAt : Time
  deriving DecidableEq

/-- The accounts, the sessions and the tokens they superseded, the clock and the log. -/
structure Db where
  accounts : Table Account.id
  sessions : Table SessionRow.id
  history : Table HistoryRow.tokenHash
  now : Time
  log : List Event

/-- Which token of its session was presented. -/
inductive Matched
  | current | previous
  deriving DecidableEq, Repr

/-- `ActiveSession`. -/
structure ActiveSession where
  sessionId : Text
  account : Account
  matched : Matched
  rotationDue : Bool
  graceOver : Bool
  deriving DecidableEq

/-- The token is the row's current or previous one. -/
def presents (token : Text) (r : SessionRow) : Bool := r.tokenHash == token || r.previousTokenHash == some token

/-- What `findActiveSession` tells of a row. -/
def activeSession (now : Time) (token : Text) (r : SessionRow) (account : Account) : ActiveSession where
  sessionId := r.id
  account := account
  matched := if r.tokenHash = token then .current else .previous
  rotationDue := decide (r.rotatedAt.getD r.createdAt + seconds SESSION_ROTATE_SECONDS < now)
  graceOver := r.rotatedAt.all fun rotatedAt => decide (rotatedAt + seconds SESSION_ROTATION_GRACE_SECONDS < now)

/-- The account of a row, if the row is live and its user enabled. -/
def liveAccount (db : Db) (r : SessionRow) : Option Account :=
  (db.accounts.find? r.userId).filter fun a => r.live db.now a.secondFactor && !a.disabled

/-- `findActiveSession`. -/
def findActiveSession (db : Db) (token : Text) : Option ActiveSession :=
  (db.sessions.rows.filter (presents token)).findSome? fun r =>
    (liveAccount db r).map (activeSession db.now token r)

/-- `findSessionBySupersededToken`: the session and its user. -/
def findSessionBySupersededToken (db : Db) (token : Text) : Option (Text × Text) :=
  (db.history.find? token).bind fun h =>
    ((db.sessions.find? h.sessionId).filter fun r => decide (db.now < r.expiresAt)).map fun r => (r.id, r.userId)

/-! ## Writes -/

/-- What a statement has found. -/
inductive Reliance
  /-- The `UPDATE` of `rotateSession` returned the session. -/
  | rotatable (id presented hash : Text) (at' : Time)
  /-- `lockPendingSession` returned the session. -/
  | pending (id : Text) (at' : Time)
  deriving DecidableEq

inductive Write
  | rely (found : Reliance)
  | insertSession (input : NewSession) (at' : Time)
  /-- The session with its fresh token, and the row of the history. -/
  | rotate (t : ℕ) (id presented hash : Text) (at' : Time)
  | elevate (id hash : Text) (at' : Time)
  | raise (id : Text)
  /-- The history of the session goes with it. -/
  | delete (id : Text)
  deriving DecidableEq

/-- What a transaction locks: sessions, and the entries of the unique index of their tokens. -/
inductive RowKey
  | session (id : Text)
  | tokenHash (hash : Text)
  deriving DecidableEq

/-- The rows a write acts on. -/
def Write.rights : Write → List RowKey
  | .rely (.rotatable id _ hash _) | .rotate _ id _ hash _ | .elevate id hash _ => [.session id, .tokenHash hash]
  | .rely (.pending id _) | .raise id | .delete id => [.session id]
  | .insertSession input _ => [.session input.id, .tokenHash input.tokenHash]

/-- The row `id` as `f` makes it. -/
def rewrite (id : Text) (f : SessionRow → SessionRow) (r : SessionRow) : SessionRow :=
  if r.id = id then { f r with id := r.id } else r

theorem rewrite_id (id : Text) (f : SessionRow → SessionRow) (r : SessionRow) : (rewrite id f r).id = r.id := by
  unfold rewrite
  split_ifs <;> rfl

/-- `UPDATE sessions ... WHERE id = ...`. -/
def Db.updateSession (db : Db) (id : Text) (f : SessionRow → SessionRow) : Table SessionRow.id :=
  db.sessions.updateAll (rewrite id f) (rewrite_id id f)

def Write.apply : Write → Db → Db
  | .rely _, db => db
  | .insertSession input at', db =>
    { db with
      sessions := db.sessions.upsert (input.row at') (fun _ => input.row at') fun _ h => h.symm
      log := db.log ++ [.opened input at'] }
  | .rotate t id presented hash at', db =>
    { db with
      sessions := db.updateSession id (·.rotated at' hash)
      history := db.history.upsert ⟨presented, id, at'⟩ (fun _ => ⟨presented, id, at'⟩) fun _ h => h.symm
      log := db.log ++ [.rotated t id presented hash at'] }
  | .elevate id hash at', db =>
    { db with sessions := db.updateSession id (·.elevated at' hash), log := db.log ++ [.elevated id hash at'] }
  | .raise id, db =>
    { db with
      sessions := db.updateSession id fun r => { r with assurance := .mfa }
      log := db.log ++ [.raised id] }
  | .delete id, db =>
    { db with
      sessions := db.sessions.deleteWhere (·.id == id)
      history := db.history.deleteWhere (·.sessionId == id)
      log := db.log ++ [.ended id] }

/-! ## The calls -/

/-- A request, and the token that `rotateSession` mints if it comes to that. -/
structure Request where
  token : Text
  crossOriginPost : Bool
  path : Text
  minted : Text
  deriving DecidableEq

/-- A call of `rotateSession`; `held` says that the request will be sent to the Two-factor page. -/
structure Rotation where
  sessionId : Text
  presented : Text
  hash : Text
  held : Bool
  deriving DecidableEq

/-- The `WHERE` of a `DELETE FROM sessions`. -/
inductive Deletion
  /-- `revokeSessionByToken`. -/
  | byToken (token : Text)
  /-- `revokeAllUserSessions`. -/
  | ofUser (userId : Text)
  /-- `revokeUserSession`. -/
  | one (userId id : Text)
  /-- `revokeOtherUserSessions`. -/
  | others (userId keepSessionId : Text)
  /-- `purgeExpiredSessions`. -/
  | expired (at' : Time)
  /-- The sessions of a credential or an account that is deleted. -/
  | cascade (ids : List Text)
  deriving DecidableEq

def Deletion.selects : Deletion → SessionRow → Bool
  | .byToken token, r => presents token r
  | .ofUser userId, r => r.userId == userId
  | .one userId id, r => r.id == id && r.userId == userId
  | .others userId keepSessionId, r => r.userId == userId && r.id != keepSessionId
  | .expired at', r => decide (r.expiresAt < at')
  | .cascade ids, r => ids.any (· == r.id)

inductive Answer
  /-- The request goes on, or is held back until the account has a second factor; and its new cookie. -/
  | served (held : Bool) (cookie : Option Text)
  | forbidden
  /-- The cookie is cleared, and the login page shown. -/
  | turnedAway
  /-- The same, after every session of the user was revoked. -/
  | reuse
  | unavailable | done | failed
  deriving DecidableEq

/-- How far a call has come. -/
inductive Point
  | asking (request : Request)
  /-- `findActiveSession` has found nothing. -/
  | missed (request : Request)
  /-- A superseded token of this user was presented. -/
  | reused (userId : Text)
  | due (rotation : Rotation)
  | rotating (rotation : Rotation) (startedAt : Time)
  | updated (rotation : Rotation) (startedAt : Time)
  | opening (input : NewSession) (startedAt : Time)
  | elevating (id presented hash : Text) (startedAt : Time)
  | pendingLocked (id hash : Text) (startedAt : Time)
  | raising (id : Text)
  /-- The `DELETE` has found these sessions. -/
  | deleting (which : Deletion) (ids : List Text) (answer : Answer)
  | finishing (answer : Answer)
  | ended (answer : Answer)
  deriving DecidableEq

abbrev GuardDraft := Draft RowKey Write Point

abbrev State := Store Db GuardDraft

inductive Call
  | request (request : Request)
  | createSession (input : NewSession)
  | elevatePendingSession (id presented hash : Text)
  /-- `markSessionMfa` and `raiseSessionToMfa`, of a session that the guard has let pass. -/
  | raiseSession (id : Text)
  | deleteSessions (which : Deletion)
  deriving DecidableEq

/-- A call that starts, one statement of a call, its failure, a commit whose answer is lost, a change of the
accounts, or time. -/
inductive Action
  | start (t : ℕ) (call : Call)
  | next (t : ℕ)
  | fail (t : ℕ)
  | lose (t : ℕ)
  | changeAccounts (accounts : Table Account.id)
  | tick (ms : ℕ)

/-! ## Steps -/

/-- How a request was judged. -/
def note (s : State) (e : Event) : State := { s with db := { s.db with log := s.db.log ++ [e] } }

/-- `mintToken`: 256 random bits, which no session has had before. -/
def unminted (db : Db) (hash : Text) : Bool := !(tokens db.log).any (· == hash)

/-- The guard once `findActiveSession` has found a session. -/
def judge (policy : TwoFactorPolicy) (s : State) (t : ℕ) (request : Request) (session : ActiveSession) : State :=
  if session.matched = .previous ∧ session.graceOver = true then
    (note s (.alarmed t request.token session.sessionId session.account.id .previous s.db.now)).leave t
      (.reused session.account.id)
  else if request.crossOriginPost then s.leave t (.ended .forbidden)
  else
    let held := !session.account.secondFactor && twoFactorRequired policy session.account.role &&
      !isTwoFactorEnrolmentPath request.path
    (note s (.admitted t request.token session.sessionId session.account s.db.now)).leave t
      (if session.matched = .current ∧ session.rotationDue = true then
        .due ⟨session.sessionId, request.token, request.minted, held⟩
      else .ended (.served held none))

/-- The guard once `findActiveSession` has found nothing. -/
def lookBack (s : State) (t : ℕ) (request : Request) : State :=
  match findSessionBySupersededToken s.db request.token with
  | some (id, userId) =>
    (note s (.alarmed t request.token id userId .history s.db.now)).leave t (.reused userId)
  | none => (note s (.turnedAway t request.token s.db.now)).leave t (.ended .turnedAway)

/-- A `DELETE` starts. -/
def delete (s : State) (t : ℕ) (which : Deletion) (answer : Answer) : State :=
  s.leave t (.deleting which ((s.db.sessions.rows.filter which.selects).map (·.id)) answer)

/-- The next statement of the draft `p`. -/
def nextStatement (policy : TwoFactorPolicy) (s : State) (t : ℕ) (p : GuardDraft) : State :=
  let db := p.view Write.apply s.db
  match p.point with
  | .asking request =>
    match findActiveSession s.db request.token with
    | some session => judge policy s t request session
    | none => s.leave t (.missed request)
  | .missed request => lookBack s t request
  | .reused userId => delete s t (.ofUser userId) .reuse
  | .due rotation => s.leave t (.rotating rotation s.db.now)
  | .rotating rotation startedAt =>
    -- `UPDATE ... RETURNING`: another request may have rotated first
    if (db.sessions.find? rotation.sessionId).any (·.rotatable startedAt rotation.presented) then
      if unminted db rotation.hash then
        s.write t p (.updated rotation startedAt)
          [(.session rotation.sessionId, .update), (.tokenHash rotation.hash, .update)]
          [.rely (.rotatable rotation.sessionId rotation.presented rotation.hash startedAt)]
      else s.leave t (.ended (.served rotation.held none))
    else s.leave t (.ended (.served rotation.held none))
  | .updated rotation startedAt =>
    -- `INSERT` into the history: its token is the primary key
    if (db.history.find? rotation.presented).isSome then s.leave t (.ended (.served rotation.held none))
    else
      s.write t p (.finishing (.served rotation.held (some rotation.hash))) []
        [.rotate t rotation.sessionId rotation.presented rotation.hash startedAt]
  | .opening input startedAt =>
    if unminted db input.tokenHash && !(opened db.log).any (· == input.id) then
      s.write t p (.finishing .done) [(.session input.id, .update), (.tokenHash input.tokenHash, .update)]
        [.insertSession input startedAt]
    else s.leave t (.ended .failed)
  | .elevating id presented hash startedAt =>
    -- `lockPendingSession`
    if (db.sessions.find? id).any fun r => r.pendingFor startedAt presented &&
        (db.accounts.find? r.userId).any fun a => !a.disabled then
      s.write t p (.pendingLocked id hash startedAt) [(.session id, .update)] [.rely (.pending id startedAt)]
    else s.leave t (.ended .failed)
  | .pendingLocked id hash startedAt =>
    if unminted db hash then
      s.write t p (.finishing .done) [(.tokenHash hash, .update)] [.elevate id hash startedAt]
    else s.leave t (.ended .failed)
  | .raising id =>
    if (db.sessions.find? id).isSome then
      s.write t p (.finishing .done) [(.session id, .noKeyUpdate)] [.raise id]
    else s.leave t (.ended .done)
  | .deleting which ids answer =>
    -- granted the rows, the statement looks at each again
    let gone := ids.filter fun id => (db.sessions.find? id).any which.selects
    s.write t p (.finishing answer) (gone.map fun id => (.session id, .update)) (gone.map .delete)
  | .finishing answer => s.finish Write.apply t p (.ended answer)
  | .ended _ => s

/-- The first statement of a call. -/
def start (s : State) (t : ℕ) : Call → State
  | .request request => s.leave t (.asking request)
  | .createSession input => s.leave t (.opening input s.db.now)
  | .elevatePendingSession id presented hash => s.leave t (.elevating id presented hash s.db.now)
  | .raiseSession id =>
    if (s.db.sessions.find? id).any (·.assurance != .pending) then s.leave t (.raising id)
    else s.leave t (.ended .failed)
  | .deleteSessions which => delete s t which .done

/-- What a call that fails there is answered: a rotation that failed is logged, and the request served. -/
def Point.failure : Point → Answer
  | .asking _ | .missed _ | .reused _ | .deleting _ _ .reuse | .finishing .reuse => .unavailable
  | .due rotation | .rotating rotation _ | .updated rotation _ => .served rotation.held none
  | .finishing (.served held _) => .served held none
  | _ => .failed

/-- The call has ended. -/
def Point.isEnded : Point → Bool
  | .ended _ => true
  | _ => false

/-- The commit of `t`, whose answer is lost. -/
def lose (s : State) (t : ℕ) (p : GuardDraft) : State :=
  match p.point with
  | .finishing answer => s.finish Write.apply t p (.ended (Point.finishing answer).failure)
  | _ => s

/-- One action. -/
def step (policy : TwoFactorPolicy) (s : State) : Action → State
  | .start t call => if (s.phase? t).isSome then s else start s t call
  | .next t => (s.phase? t).elim s (nextStatement policy s t)
  | .fail t =>
    (s.phase? t).elim s fun p => if p.point.isEnded then s else s.leave t (.ended p.point.failure)
  | .lose t => (s.phase? t).elim s (lose s t)
  | .changeAccounts accounts => { s with db := { s.db with accounts := accounts } }
  | .tick ms => { s with db := { s.db with now := s.db.now + ms } }

/-- No session yet. -/
def init (accounts : Table Account.id) (now : Time) : State := Store.init ⟨accounts, Table.empty, Table.empty, now, []⟩

end BunMail.Users.Guard
