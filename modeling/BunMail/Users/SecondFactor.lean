import BunMail.Lib.Drafts
import BunMail.Users.Session
import BunMail.Users.Totp

/-!
# Second factors, statement by statement

`matchSecondFactor` and its callers, `confirmEnrolment` and `removeSecondFactors`, over the `totp`
credentials, the recovery codes and the sessions of one account.  Each call is a draft: its statements
take row locks, wait for them, and write.  `DELETE` of a credential deletes its codes by the cascade.

Three counts come with the tables: credentials and recovery codes are numbered in the order in which
they are committed, and the log keeps what was accepted and what was taken away.
-/

namespace BunMail.Users.SecondFactor

open CodeUnits Base32 Totp Transactions

/-! ## Secrets and codes -/

/-- The cryptography: the HMAC, the upper case of a string, `decryptSecret` under the configured key
(`none` when it throws), and `hashRecoveryCode`. -/
structure Primitives where
  hmac : HmacSha1
  toUpperCase : CodeUnits → CodeUnits
  decryptSecret : Text → Option CodeUnits
  hashRecoveryCode : CodeUnits → Text

/-- The random bytes of `generateRecoveryCodes`. -/
abbrev NewCodes := Fin RECOVERY_CODE_COUNT → Vector (BitVec 8) RECOVERY_CODE_BYTES

variable (c : Primitives)

/-- `secretKey`; `none` when it throws. -/
def Primitives.secretKey (encrypted : Text) : Option (List (BitVec 8)) :=
  (c.decryptSecret encrypted).bind (base32Decode c.toUpperCase)

/-- The hash of a new code. -/
def Primitives.codeHash (bytes : Vector (BitVec 8) RECOVERY_CODE_BYTES) : Text :=
  let code := generateRecoveryCode bytes
  c.hashRecoveryCode ((normalizeRecoveryCode c.toUpperCase code).getD code)

/-- What `issueRecoveryCodes` inserts. -/
def Primitives.codeHashes (random : NewCodes) : List Text := (List.ofFn random).map c.codeHash

/-! ## The tables -/

/-- A `totp` row of `user_credentials`, with its number. -/
structure TotpRow where
  id : Text
  secretHash : Option Text
  counter : Option ℕ
  number : ℕ
  deriving DecidableEq

/-- A row of `user_recovery_codes`, with its number. -/
structure RecoveryCodeRow where
  codeHash : Text
  credentialId : Text
  usedAt : Option Time
  number : ℕ
  deriving DecidableEq

/-- A row of `sessions`, with the secret of an enrolment started in it. -/
structure FactorSession extends SessionRow where
  totpPendingSecret : Option Text
  deriving DecidableEq

/-- A code checked against a secret. -/
structure Attempt where
  secretHash : Text
  input : CodeUnits
  nowMs : Time
  deriving DecidableEq

/-- What the tables tell, once it is committed. -/
inductive Event
  /-- A time step of the credential with that number is accepted. -/
  | accepted (credential step : ℕ) (attempt : Attempt)
  /-- The recovery code with that number is accepted. -/
  | spent (code : ℕ)
  /-- The credential is removed; what was numbered by then is numbered below `before`. -/
  | removed (before : ℕ)
  /-- The recovery codes are replaced. -/
  | regenerated (before : ℕ)
  deriving DecidableEq

/-- The account and its rows, the clock, and the counts. -/
structure Db where
  disabled : Bool
  credentials : Table TotpRow.id
  codes : Table RecoveryCodeRow.codeHash
  sessions : Table (fun r : FactorSession => r.id)
  now : Time
  issued : ℕ
  log : List Event

/-- `totpCredentialOf`. -/
def totpCredentialOf (db : Db) : Option TotpRow := db.credentials.rows.head?

/-- `recoveryCodesLeft`. -/
def recoveryCodesLeft (db : Db) : ℕ := db.codes.rows.countP (·.usedAt.isNone)

/-! ## Writes -/

/-- What a transaction locks: the account, its other rows, and the entry of a `totp` credential in
`user_credentials_one_totp_per_user`. -/
inductive RowKey
  | user
  | session (id : Text)
  | credential (id : Text)
  | code (codeHash : Text)
  | oneTotp
  deriving DecidableEq

def lockAll (f : Text → RowKey) (mode : Mode) (ids : List Text) : List (RowKey × Mode) :=
  ids.map fun id => (f id, mode)

/-- A write of the sessions. -/
inductive SessionWrite
  | createSession (row : FactorSession)
  | deleteSessions (ids : List Text)
  | setTotpPendingSecret (sessionIds : List Text) (encrypted : Option Text)
  | elevatePendingSession (sessionId hash : Text) (at' : Time)
  | markSessionMfa (sessionId : Text)
  deriving DecidableEq

/-- The rows it changes. -/
def SessionWrite.ids : SessionWrite → List Text
  | .createSession row => [row.id]
  | .deleteSessions ids | .setTotpPendingSecret ids _ => ids
  | .elevatePendingSession sessionId _ _ | .markSessionMfa sessionId => [sessionId]

/-- What an `UPDATE` makes of a row. -/
def SessionWrite.set : SessionWrite → FactorSession → FactorSession
  | .setTotpPendingSecret _ encrypted, r => { r with totpPendingSecret := encrypted }
  | .elevatePendingSession _ hash at', r => { r with toSessionRow := r.toSessionRow.elevated at' hash }
  | .markSessionMfa _, r => { r with assurance := .mfa, totpPendingSecret := none }
  | .createSession _, r | .deleteSessions _, r => r

theorem SessionWrite.set_id (w : SessionWrite) (r : FactorSession) : (w.set r).id = r.id := by
  cases w <;> rfl

def SessionWrite.update (w : SessionWrite) (r : FactorSession) : FactorSession :=
  if w.ids.contains r.id then w.set r else r

theorem SessionWrite.update_id (w : SessionWrite) (r : FactorSession) : (w.update r).id = r.id := by
  unfold update
  split_ifs
  · exact w.set_id r
  · rfl

/-- The locks of its statement. -/
def SessionWrite.locks : SessionWrite → List (RowKey × Mode)
  | .createSession row => [(.user, .keyShare), (.session row.id, .update)]
  | .deleteSessions ids => lockAll .session .update ids
  | .setTotpPendingSecret ids _ => lockAll .session .noKeyUpdate ids
  | .elevatePendingSession sessionId _ _ => [(.session sessionId, .update)]
  | .markSessionMfa sessionId => [(.session sessionId, .noKeyUpdate)]

def SessionWrite.apply (w : SessionWrite) (sessions : Table (fun r : FactorSession => r.id)) :
    Table (fun r : FactorSession => r.id) :=
  match w with
  | .createSession row => sessions.insert row
  | .deleteSessions ids => sessions.deleteWhere fun r => ids.contains r.id
  | w => sessions.updateAll w.update w.update_id

/-- A write of a transaction. -/
inductive Write
  | session (w : SessionWrite)
  | setDisabled (disabled : Bool)
  | setCounter (credentialId : Text) (step : ℕ) (attempt : Attempt)
  | useCode (codeHash : Text) (at' : Time)
  /-- The credentials are deleted, and by the cascade the codes. -/
  | removeCredentials (ids codeHashes : List Text)
  | deleteCodes (credentialId : Text) (codeHashes : List Text)
  | insertCredential (credentialId : Text) (step : ℕ) (attempt : Attempt)
  | insertCodes (credentialId : Text) (codeHashes : List Text)
  deriving DecidableEq

/-- The rows a write acts on. -/
def Write.rights : Write → List RowKey
  | .session w => w.ids.map .session
  | .setDisabled _ => [.user]
  | .setCounter credentialId _ _ => [.credential credentialId]
  | .useCode codeHash _ => [.code codeHash]
  | .removeCredentials ids codeHashes => ids.map .credential ++ codeHashes.map .code
  | .deleteCodes credentialId codeHashes | .insertCodes credentialId codeHashes =>
    .credential credentialId :: codeHashes.map .code
  | .insertCredential credentialId _ _ => [.credential credentialId, .oneTotp]

def TotpRow.stepped (credentialId : Text) (step : ℕ) (r : TotpRow) : TotpRow :=
  if r.id = credentialId then { r with counter := some step } else r

theorem TotpRow.stepped_id (credentialId : Text) (step : ℕ) (r : TotpRow) :
    (r.stepped credentialId step).id = r.id := by
  unfold stepped
  split_ifs <;> rfl

def RecoveryCodeRow.usedFor (codeHash : Text) (at' : Time) (r : RecoveryCodeRow) : RecoveryCodeRow :=
  if r.codeHash = codeHash then { r with usedAt := some at' } else r

theorem RecoveryCodeRow.usedFor_codeHash (codeHash : Text) (at' : Time) (r : RecoveryCodeRow) :
    (r.usedFor codeHash at').codeHash = r.codeHash := by
  unfold usedFor
  split_ifs <;> rfl

/-- `INSERT` of one recovery code. -/
def Db.insertCode (credentialId : Text) (db : Db) (codeHash : Text) : Db :=
  { db with
    codes := db.codes.upsert ⟨codeHash, credentialId, none, db.issued⟩
      (fun _ => ⟨codeHash, credentialId, none, db.issued⟩) fun _ h => h.symm
    issued := db.issued + 1 }

def Write.apply : Write → Db → Db
  | .session w, db => { db with sessions := w.apply db.sessions }
  | .setDisabled disabled, db => { db with disabled := disabled }
  | .setCounter credentialId step attempt, db =>
    { db with
      credentials := db.credentials.updateAll (TotpRow.stepped credentialId step)
        (TotpRow.stepped_id credentialId step)
      log := db.log ++ (db.credentials.find? credentialId).toList.map fun r => .accepted r.number step attempt }
  | .useCode codeHash at', db =>
    { db with
      codes := db.codes.updateAll (RecoveryCodeRow.usedFor codeHash at')
        (RecoveryCodeRow.usedFor_codeHash codeHash at')
      log := db.log ++ (db.codes.find? codeHash).toList.map fun r => .spent r.number }
  | .removeCredentials ids codeHashes, db =>
    { db with
      credentials := db.credentials.deleteWhere fun r => ids.contains r.id
      codes := db.codes.deleteWhere fun r => codeHashes.contains r.codeHash
      log := db.log ++ if db.credentials.rows.any (ids.contains ·.id) then [.removed db.issued] else [] }
  | .deleteCodes _ codeHashes, db =>
    { db with
      codes := db.codes.deleteWhere fun r => codeHashes.contains r.codeHash
      log := db.log ++ [.regenerated db.issued] }
  | .insertCredential credentialId step attempt, db =>
    { db with
      credentials := db.credentials.upsert ⟨credentialId, some attempt.secretHash, some step, db.issued⟩
        (fun _ => ⟨credentialId, some attempt.secretHash, some step, db.issued⟩) fun _ h => h.symm
      issued := db.issued + 1
      log := db.log ++ [.accepted db.issued step attempt] }
  | .insertCodes credentialId codeHashes, db => codeHashes.foldl (Db.insertCode credentialId) db

/-! ## The calls -/

/-- What a submitted second factor is for. -/
inductive Caller
  | completeTwoFactorLogin (sessionId presentedHash newHash : Text)
  | disableTwoFactor
  | regenerateRecoveryCodes (random : NewCodes)

def Caller.allowRecovery : Caller → Bool
  | .completeTwoFactorLogin .. | .disableTwoFactor => true
  | .regenerateRecoveryCodes _ => false

/-- It asks the owner rule of SSO, with the account locked. -/
def Caller.asksOwnerRule : Caller → Bool
  | .disableTwoFactor => true
  | .completeTwoFactorLogin .. | .regenerateRecoveryCodes _ => false

structure Submission where
  caller : Caller
  input : CodeUnits
  nowMs : Time

/-- A call of `confirmEnrolment`, with the id and the random bytes it draws. -/
structure Confirmation where
  sessionId : Text
  input : CodeUnits
  nowMs : Time
  credentialId : Text
  random : NewCodes

/-- The second factor that matched. -/
inductive Method
  | totp
  | recoveryCode (left : ℕ)
  deriving DecidableEq

inductive Answer
  /-- The attempt budget, the password or the owner rule of SSO refuses. -/
  | refused
  | sessionGone
  | notEnabled
  | wrongCode
  | noPending
  | alreadyEnabled
  | accepted (method : Method)
  | enrolled
  | removed
  | done
  | failed
  deriving DecidableEq

/-- The second factor was accepted, enrolled or removed. -/
def Answer.changes : Answer → Bool
  | .accepted _ | .enrolled | .removed => true
  | _ => false

/-- How the caller answers a refusal of `matchSecondFactor`. -/
def Caller.refusal : Caller → Answer → Answer
  | .completeTwoFactorLogin .., _ => .wrongCode
  | .disableTwoFactor, reason | .regenerateRecoveryCodes _, reason => reason

/-- How far a call has come. -/
inductive Point
  | authorizing (sub : Submission)
  /-- The transaction has begun. -/
  | opening (sub : Submission) (startedAt : Time)
  /-- The caller's row is locked. -/
  | matching (sub : Submission) (startedAt : Time)
  /-- `totpCredentialOf` has answered. -/
  | read (sub : Submission) (startedAt : Time) (credential : TotpRow) (secretHash : Text)
  /-- The `UPDATE` of the recovery code has found its row. -/
  | spending (sub : Submission) (startedAt : Time) (credential : TotpRow) (codeHash : Text) (number : ℕ)
  | counting (sub : Submission) (startedAt : Time) (credential : TotpRow)
  | matched (sub : Submission) (startedAt : Time) (credential : TotpRow) (method : Method)
  /-- The `DELETE` has locked the credential; the cascade is next. -/
  | deleting (credential : TotpRow) (method : Method)
  /-- The old recovery codes are deleted. -/
  | purged (random : NewCodes) (credential : TotpRow) (method : Method)
  /-- `confirmEnrolment` has locked its session. -/
  | confirming (call : Confirmation) (encrypted : Text)
  | enrolling (call : Confirmation) (encrypted : Text) (step : ℕ)
  | inserted (call : Confirmation)
  | issued (call : Confirmation)
  | revoked (call : Confirmation)
  /-- `removeSecondFactors` has locked the credentials; the cascade is next. -/
  | removing (ids : List Text)
  | clearing
  | finishing (answer : Answer)
  | ended (answer : Answer)

abbrev FactorDraft := Draft RowKey Write Point

abbrev State := Store Db FactorDraft

/-! ## Steps -/

inductive Call
  | submit (sub : Submission)
  | confirmEnrolment (call : Confirmation)
  | removeSecondFactors
  /-- A sign-in, the start of an enrolment, or the end of a session. -/
  | session (w : SessionWrite)
  | setDisabled (disabled : Bool)

/-- A call that starts, one statement of a call, its failure, or time. -/
inductive Action
  | start (t : ℕ) (call : Call)
  /-- The call `t` goes on; `ok` answers what these tables do not: the attempt budget, the password
  and the owner rule. -/
  | next (t : ℕ) (ok : Bool)
  /-- A statement of `t` fails, or a deadlock ends it. -/
  | fail (t : ℕ)
  | tick (ms : ℕ)

/-- `INSERT` of recovery codes: the credential is there, and no code is taken. -/
def insertable (db : Db) (credentialId : Text) (codeHashes : List Text) : Bool :=
  db.credentials.keys.contains credentialId && decide codeHashes.Nodup &&
    codeHashes.all fun h => !db.codes.keys.contains h

/-- The codes a cascade finds. -/
def codesOf (db : Db) (ids : List Text) : List Text :=
  (db.codes.rows.filter fun r => ids.contains r.credentialId).map (·.codeHash)

/-- The locks of an `INSERT` of recovery codes. -/
def codeLocks (credentialId : Text) (codeHashes : List Text) : List (RowKey × Mode) :=
  (.user, .keyShare) :: (.credential credentialId, .keyShare) :: lockAll .code .update codeHashes

/-- The first statement of the transaction. -/
def openTransaction (s : State) (t : ℕ) (p : FactorDraft) (sub : Submission) (startedAt : Time) : State :=
  match sub.caller with
  | .completeTwoFactorLogin sessionId presentedHash _ =>
    -- `lockPendingSession`
    if (s.db.sessions.find? sessionId).any (fun r => r.pendingFor startedAt presentedHash) &&
        !s.db.disabled then
      s.write t p (.matching sub startedAt) [(.session sessionId, .update)] []
    else s.leave t (.ended .sessionGone)
  | .disableTwoFactor => s.write t p (.matching sub startedAt) [(.user, .update)] []
  | .regenerateRecoveryCodes _ => s.go t p (.matching sub startedAt)

/-- `matchSecondFactor`, once the credential is read. -/
def checkCode (s : State) (t : ℕ) (p : FactorDraft) (sub : Submission) (startedAt : Time)
    (credential : TotpRow) (secretHash : Text) : State :=
  let db := p.view Write.apply s.db
  if looksLikeTotpCode sub.input then
    match (c.secretKey secretHash).bind fun key =>
      matchTotpStep c.hmac key sub.input sub.nowMs credential.counter with
    | none => s.leave t (.ended .failed)
    | some none => s.leave t (.ended (sub.caller.refusal .wrongCode))
    | some (some step) =>
      -- `UPDATE ... WHERE counter IS NULL OR counter < step`
      if (db.credentials.find? credential.id).any fun r => usable r.counter step then
        s.write t p (.matched sub startedAt credential .totp) [(.credential credential.id, .noKeyUpdate)]
          [.setCounter credential.id step ⟨secretHash, sub.input, sub.nowMs⟩]
      else s.leave t (.ended (sub.caller.refusal .wrongCode))
  else
    match if sub.caller.allowRecovery then normalizeRecoveryCode c.toUpperCase sub.input else none with
    | none => s.leave t (.ended (sub.caller.refusal .wrongCode))
    | some normalized =>
      match (db.codes.find? (c.hashRecoveryCode normalized)).filter (·.usedAt.isNone) with
      | none => s.leave t (.ended (sub.caller.refusal .wrongCode))
      | some code =>
        s.go t p (.spending sub startedAt credential (c.hashRecoveryCode normalized) code.number)

/-- What the caller does with a second factor that matched. -/
def useMatch (s : State) (t : ℕ) (p : FactorDraft) (sub : Submission) (startedAt : Time)
    (credential : TotpRow) (method : Method) : State :=
  let db := p.view Write.apply s.db
  match sub.caller with
  | .completeTwoFactorLogin sessionId _ newHash =>
    -- `elevatePendingSession`
    if (db.sessions.find? sessionId).any (·.assurance == .pending) then
      s.write t p (.finishing (.accepted method)) [(.session sessionId, .update)]
        [.session (.elevatePendingSession sessionId newHash startedAt)]
    else s.leave t (.ended .failed)
  | .disableTwoFactor =>
    if db.credentials.keys.contains credential.id then
      s.write t p (.deleting credential method) [(.credential credential.id, .update)] []
    else s.go t p (.finishing (.accepted method))
  | .regenerateRecoveryCodes random =>
    s.write t p (.purged random credential method) (lockAll .code .update db.codes.keys)
      [.deleteCodes credential.id db.codes.keys]

/-- `confirmEnrolment`, once its session is locked. -/
def checkEnrolment (s : State) (t : ℕ) (p : FactorDraft) (call : Confirmation) (encrypted : Text) : State :=
  if (totpCredentialOf (p.view Write.apply s.db)).isSome then
    s.write t p (.finishing .alreadyEnabled) [(.session call.sessionId, .noKeyUpdate)]
      [.session (.setTotpPendingSecret [call.sessionId] none)]
  else
    match (c.secretKey encrypted).bind fun key =>
      matchTotpStep c.hmac key call.input call.nowMs none with
    | none => s.leave t (.ended .failed)
    | some none => s.leave t (.ended .wrongCode)
    | some (some step) => s.go t p (.enrolling call encrypted step)

/-- The next statement of the draft `p`. -/
def nextStatement (s : State) (t : ℕ) (ok : Bool) (p : FactorDraft) : State :=
  let db := p.view Write.apply s.db
  match p.point with
  | .authorizing sub => if ok then s.go t p (.opening sub s.db.now) else s.leave t (.ended .refused)
  | .opening sub startedAt => openTransaction s t p sub startedAt
  | .matching sub startedAt =>
    if ok || !sub.caller.asksOwnerRule then
      match (totpCredentialOf db).bind fun r => r.secretHash.map fun secret => (r, secret) with
      | none => s.leave t (.ended (sub.caller.refusal .notEnabled))
      | some (credential, secretHash) => s.go t p (.read sub startedAt credential secretHash)
    else s.leave t (.ended .refused)
  | .read sub startedAt credential secretHash => checkCode c s t p sub startedAt credential secretHash
  | .spending sub startedAt credential codeHash number =>
    if (db.codes.find? codeHash).any fun r => r.usedAt.isNone && r.number == number then
      s.write t p (.counting sub startedAt credential) [(.code codeHash, .noKeyUpdate)]
        [.useCode codeHash startedAt]
    else s.leave t (.ended (sub.caller.refusal .wrongCode))
  | .counting sub startedAt credential =>
    s.go t p (.matched sub startedAt credential (.recoveryCode (recoveryCodesLeft db)))
  | .matched sub startedAt credential method => useMatch s t p sub startedAt credential method
  | .deleting credential method =>
    s.write t p (.finishing (.accepted method)) (lockAll .code .update (codesOf db [credential.id]))
      [.removeCredentials [credential.id] (codesOf db [credential.id])]
  | .purged random credential method =>
    if insertable db credential.id (c.codeHashes random) then
      s.write t p (.finishing (.accepted method)) (codeLocks credential.id (c.codeHashes random))
        [.insertCodes credential.id (c.codeHashes random)]
    else s.leave t (.ended .failed)
  | .confirming call encrypted => checkEnrolment c s t p call encrypted
  | .enrolling call encrypted step =>
    -- a unique index answers `already_enabled`
    if (totpCredentialOf db).isSome then s.leave t (.ended .alreadyEnabled)
    else
      s.write t p (.inserted call)
        [(.user, .keyShare), (.credential call.credentialId, .update), (.oneTotp, .update)]
        [.insertCredential call.credentialId step ⟨encrypted, call.input, call.nowMs⟩]
  | .inserted call =>
    if insertable db call.credentialId (c.codeHashes call.random) then
      s.write t p (.issued call) (codeLocks call.credentialId (c.codeHashes call.random))
        [.insertCodes call.credentialId (c.codeHashes call.random)]
    else s.leave t (.ended .alreadyEnabled)
  | .issued call =>
    let others := db.sessions.keys.filter (· ≠ call.sessionId)
    s.write t p (.revoked call) (lockAll .session .update others) [.session (.deleteSessions others)]
  | .revoked call =>
    s.write t p (.finishing .enrolled) [(.session call.sessionId, .noKeyUpdate), (.user, .noKeyUpdate)]
      [.session (.markSessionMfa call.sessionId)]
  | .removing ids =>
    s.write t p .clearing (lockAll .code .update (codesOf db ids)) [.removeCredentials ids (codesOf db ids)]
  | .clearing =>
    s.write t p (.finishing .removed) (lockAll .session .noKeyUpdate db.sessions.keys)
      [.session (.setTotpPendingSecret db.sessions.keys none)]
  | .finishing answer => s.finish Write.apply t p (.ended answer)
  | .ended _ => s

/-- The first statement of a call. -/
def start (s : State) (t : ℕ) : Call → State
  | .submit sub =>
    match sub.caller with
    | .disableTwoFactor =>
      if (totpCredentialOf s.db).isSome then s.leave t (.authorizing sub)
      else s.leave t (.ended .notEnabled)
    | .completeTwoFactorLogin .. | .regenerateRecoveryCodes _ => s.leave t (.authorizing sub)
  | .confirmEnrolment call =>
    match (s.db.sessions.find? call.sessionId).bind (·.totpPendingSecret) with
    | none => s.leave t (.ended .noPending)
    | some encrypted =>
      s.enter Draft.held t ⟨.confirming call encrypted, [(.session call.sessionId, .update)], []⟩
  | .removeSecondFactors =>
    s.enter Draft.held t
      ⟨.removing s.db.credentials.keys, lockAll .credential .update s.db.credentials.keys, []⟩
  | .session w => s.enter Draft.held t ⟨.finishing .done, w.locks, [.session w]⟩
  | .setDisabled disabled =>
    s.enter Draft.held t ⟨.finishing .done, [(.user, .noKeyUpdate)], [.setDisabled disabled]⟩

/-- The call has ended. -/
def Point.isEnded : Point → Bool
  | .ended _ => true
  | _ => false

/-- One action. -/
def step (s : State) : Action → State
  | .start t call => if (s.phase? t).isSome then s else start s t call
  | .next t ok => (s.phase? t).elim s (nextStatement c s t ok)
  | .fail t =>
    if (s.phase? t).any fun p => !p.point.isEnded then s.leave t (.ended .failed) else s
  | .tick ms => { s with db := { s.db with now := s.db.now + ms } }

/-- An account that has no second factor. -/
def init (sessions : Table (fun r : FactorSession => r.id)) (now : Time) : State :=
  Store.init
    { disabled := false
      credentials := Table.empty
      codes := Table.empty
      sessions := sessions
      now := now
      issued := 0
      log := [] }

end BunMail.Users.SecondFactor
