import BunMail.Lib.Text

/-!
# Sessions

A row of `sessions`, and what opening, rotating and elevating a session make of it.
-/

namespace BunMail.Users

/-! ## Lifetimes -/

/-- `SESSION_IDLE_SECONDS`. -/
def SESSION_IDLE_SECONDS : ℕ := 24 * 60 * 60

/-- `SESSION_ABSOLUTE_SECONDS`. -/
def SESSION_ABSOLUTE_SECONDS : ℕ := 7 * 24 * 60 * 60

/-- `SESSION_ROTATE_SECONDS`. -/
def SESSION_ROTATE_SECONDS : ℕ := 60

/-- `SESSION_ROTATION_GRACE_SECONDS`. -/
def SESSION_ROTATION_GRACE_SECONDS : ℕ := 30

/-- `SESSION_PENDING_SECONDS`. -/
def SESSION_PENDING_SECONDS : ℕ := 10 * 60

/-- `seconds`, on a clock of milliseconds. -/
def seconds (value : ℕ) : Time := value * 1000

/-! ## Rows -/

/-- `SESSION_ASSURANCES`. -/
inductive SessionAssurance
  | pending | password | mfa
  deriving DecidableEq, Repr

/-- A row of `sessions`. -/
structure SessionRow where
  id : Text
  userId : Text
  tokenHash : Text
  previousTokenHash : Option Text := none
  rotatedAt : Option Time := none
  assurance : SessionAssurance
  credentialId : Option Text := none
  expiresAt : Time
  createdAt : Time
  deriving DecidableEq

/-- `NewSessionInput`, with the id and the token that `createSession` mints. -/
structure NewSession where
  id : Text
  tokenHash : Text
  userId : Text
  assurance : SessionAssurance
  credentialId : Option Text
  deriving DecidableEq

/-- The row `createSession` inserts. -/
def NewSession.row (input : NewSession) (now : Time) : SessionRow where
  id := input.id
  userId := input.userId
  tokenHash := input.tokenHash
  assurance := input.assurance
  credentialId := input.credentialId
  expiresAt := now + seconds
    (if input.assurance = .pending then SESSION_PENDING_SECONDS else SESSION_IDLE_SECONDS)
  createdAt := now

namespace SessionRow

variable (r : SessionRow) (now : Time)

/-- `slidingExpiry`. -/
def slidingExpiry : Time :=
  min (now + seconds SESSION_IDLE_SECONDS) (r.createdAt + seconds SESSION_ABSOLUTE_SECONDS)

/-- `liveSession`. -/
def live (hasSecondFactor : Bool) : Bool :=
  decide (now < r.expiresAt) &&
    (r.assurance == .mfa || (r.assurance == .password && !hasSecondFactor))

/-- The `WHERE` of `rotateSession`, for its session. -/
def rotatable (presentedHash : Text) : Bool :=
  r.tokenHash == presentedHash && decide (now < r.expiresAt)

/-- The `SET` of `rotateSession`. -/
def rotated (hash : Text) : SessionRow :=
  { r with
    previousTokenHash := some r.tokenHash
    tokenHash := hash
    rotatedAt := some now
    expiresAt := r.slidingExpiry now }

/-- The `WHERE` of `lockPendingSession`, for its session. -/
def pendingFor (presentedHash : Text) : Bool :=
  r.tokenHash == presentedHash && r.assurance == .pending && decide (now < r.expiresAt)

/-- The `SET` of `elevatePendingSession`. -/
def elevated (hash : Text) : SessionRow :=
  { r with
    assurance := .mfa
    tokenHash := hash
    previousTokenHash := none
    rotatedAt := some now
    expiresAt := r.slidingExpiry now }

end SessionRow

end BunMail.Users
