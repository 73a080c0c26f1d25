import BunMail.Emails.MxRoute

/-!
# MTA-STS policies

A policy in `enforce` mode restricts a domain's MX hosts to those that match one of its patterns.
-/

namespace BunMail.Emails

/-- `MtaStsMode`. -/
inductive MtaStsMode
  | enforce | testing | none
  deriving DecidableEq, Repr

structure MtaStsPolicy where
  mode : MtaStsMode
  mx : List Text
  maxAge : ℕ
  deriving DecidableEq

structure ActiveMtaStsPolicy where
  id : Text
  policy : MtaStsPolicy
  deriving DecidableEq

section Policy

variable (toLowerCase : Text → Text)

/-- An exact name, or `*.example.com` for exactly one leftmost label, ignoring case and a trailing
dot. -/
def mxMatchesPattern (mxHost pattern : Text) : Bool :=
  let host := hostName toLowerCase mxHost
  let want := withoutTrailingDot (toLowerCase pattern)
  if "*.".toList.isPrefixOf want then
    let suffix := want.drop 1
    if suffix.isSuffixOf host then
      let label := host.take (host.length - suffix.length)
      label ≠ [] && '.' ∉ label
    else false
  else host = want

/-- The host matches one of the policy's patterns. -/
def matchesPolicy (policy : MtaStsPolicy) (host : Text) : Bool :=
  policy.mx.any (mxMatchesPattern toLowerCase host)

/-- The hosts that match, in their order. -/
def matchingMxHosts (hosts : List Text) (policy : MtaStsPolicy) : List Text :=
  hosts.filter (matchesPolicy toLowerCase policy)

/-- The mode recorded on entries. -/
def mtaStsModeOf (policy : Option ActiveMtaStsPolicy) : Option DeliveryMtaSts :=
  match policy with
  | some ⟨_, ⟨.enforce, _, _⟩⟩ => some .enforce
  | some ⟨_, ⟨.testing, _, _⟩⟩ => some .testing
  | _ => Option.none

/-- The hosts to try: in `enforce` mode only those the policy names. -/
def policyHosts (hosts : List Text) (policy : Option ActiveMtaStsPolicy) : List Text :=
  match policy with
  | Option.none => hosts
  | some active =>
    match active.policy.mode with
    | .none | .testing => hosts
    | .enforce => matchingMxHosts toLowerCase hosts active.policy

variable {toLowerCase} {hosts : List Text} {policy : Option ActiveMtaStsPolicy}

/-- The policy is in enforce mode. -/
def enforces (policy : Option ActiveMtaStsPolicy) : Bool := mtaStsModeOf policy = some .enforce

theorem enforces_iff : enforces policy = true ↔ ∃ p, policy = some p ∧ p.policy.mode = .enforce := by
  unfold enforces mtaStsModeOf
  rcases policy with _ | ⟨_, ⟨mode, _, _⟩⟩
  · simp
  · cases mode <;> simp

variable (toLowerCase) in
/-- Under an enforced policy the host is one it names; any host otherwise. -/
def Permitted (policy : Option ActiveMtaStsPolicy) (host : Text) : Prop :=
  ∀ p, policy = some p → p.policy.mode = .enforce → matchesPolicy toLowerCase p.policy host = true

theorem permitted_of_mem_policyHosts {host : Text} (h : host ∈ policyHosts toLowerCase hosts policy) :
    Permitted toLowerCase policy host := by
  rintro p rfl hm
  simp only [policyHosts, hm, matchingMxHosts, List.mem_filter] at h
  exact h.2

end Policy

example : mxMatchesPattern id "mx1.example.com" "*.example.com" = true ∧
    mxMatchesPattern id "a.b.example.com" "*.example.com" = false ∧
    mxMatchesPattern id "example.com" "*.example.com" = false := by decide

end BunMail.Emails
