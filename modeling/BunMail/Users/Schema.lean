import BunMail.Lib.Table
import BunMail.Lib.Text

/-!
# Accounts and credentials

The rows of `users` and `user_credentials`, with the unique indexes of the second, and who may do
what to whose account.
-/

namespace BunMail.Users

/-! ## Rows -/

/-- `USER_ROLES`. -/
inductive UserRole
  | owner | admin | member
  deriving DecidableEq, Repr

/-- The roles in order. -/
def UserRole.rank : UserRole → ℕ
  | .member => 0
  | .admin => 1
  | .owner => 2

/-- A row of `users`. -/
structure UserRow where
  id : Text
  email : Text
  role : UserRole
  disabledAt : Option Time := none
  deriving DecidableEq

/-- `CREDENTIAL_TYPES`. -/
inductive CredentialType
  | password | totp | passkey | oauth
  deriving DecidableEq, Repr

/-- `SECOND_FACTOR_TYPES`. -/
def CredentialType.secondFactor : CredentialType → Bool
  | .totp | .passkey => true
  | .password | .oauth => false

/-- A row of `user_credentials`. -/
structure CredentialRow where
  id : Text
  userId : Text
  type : CredentialType
  provider : Option Text := none
  providerAccountId : Option Text := none
  secretHash : Option Text := none
  counter : Option ℕ := none
  deriving DecidableEq

/-- Equal values that are not null. -/
def sameValue (a b : Option Text) : Bool := a.isSome && a == b

/-- The primary key or a unique index of `user_credentials` keeps the two rows apart. -/
def CredentialRow.clashes (a b : CredentialRow) : Bool :=
  a.id == b.id ||
    (sameValue a.provider b.provider && sameValue a.providerAccountId b.providerAccountId) ||
    (a.type == b.type && a.userId == b.userId && (a.type == .password || a.type == .totp)) ||
    (a.type == .oauth && b.type == .oauth && a.userId == b.userId &&
      sameValue a.provider b.provider) ||
    (a.type == .passkey && b.type == .passkey &&
      sameValue a.providerAccountId b.providerAccountId)

/-! ## Account actions -/

/-- `AccountAction`. -/
inductive AccountAction
  | changeRole | deactivate | reactivate | remove | transferOwnership | resetPassword
  deriving DecidableEq, Repr

/-- `AccountRefusal`. -/
inductive AccountRefusal
  | actorInactive | notFound | self | targetIsOwner | roleNotAllowed | invalidRole | unchanged
  | confirmMismatch | wrongPassword | notEligible | ssoLinkWithoutSecondFactor | rateLimited
  | accountDisabled
  deriving DecidableEq, Repr

/-- `grantableRoles`. -/
def grantableRoles : UserRole → List UserRole
  | .owner => [.admin, .member]
  | .admin => [.member]
  | .member => []

/-- The account is deactivated. -/
def UserRow.disabled (u : UserRow) : Bool := u.disabledAt.isSome

/-- `canManage`. -/
def canManage (actorRole targetRole : UserRole) : Bool :=
  (grantableRoles actorRole).any (· == targetRole)

/-- `accountActionRefusal`. -/
def accountActionRefusal (action : AccountAction) (actor target : UserRow) :
    Option AccountRefusal :=
  if actor.id = target.id then some .self
  else if target.role = .owner then some .targetIsOwner
  else
    match action with
    | .changeRole => if actor.role = .owner then none else some .roleNotAllowed
    | .deactivate =>
      if !canManage actor.role target.role then some .roleNotAllowed
      else if target.disabled then some .unchanged else none
    | .reactivate =>
      if !canManage actor.role target.role then some .roleNotAllowed
      else if target.disabled then none else some .unchanged
    | .remove => if canManage actor.role target.role then none else some .roleNotAllowed
    | .transferOwnership =>
      if actor.role ≠ .owner then some .roleNotAllowed
      else if target.role = .admin ∧ target.disabled = false then none else some .notEligible
    | .resetPassword =>
      if !canManage actor.role target.role then some .roleNotAllowed
      else if target.disabled then some .accountDisabled else none

end BunMail.Users
