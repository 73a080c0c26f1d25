import Mathlib.Data.Int.Notation
import BunMail.Lib.Text

/-!
# The verification state of a domain

`domain-check-state.ts`: what one DNS check of a domain changes.  A lookup that errored changes
nothing; a definitive failure counts, and only the second in a row clears flags.
-/

namespace BunMail.Domains

/-- `DnsCheckStatus`. -/
inductive DnsCheckStatus
  | pass | fail | unknown
  deriving DecidableEq

/-- `DnsCheckName`. -/
inductive DnsCheckName
  | spf | dkim | dmarc
  deriving DecidableEq

/-- `DnsCheckOutcome`. -/
structure DnsCheckOutcome where
  status : DnsCheckStatus
  reason : Text
  deriving DecidableEq

/-- `DomainCheckResult`. -/
structure DomainCheckResult where
  spf : DnsCheckOutcome
  dkim : DnsCheckOutcome
  dmarc : DnsCheckOutcome
  checkedAt : Time
  deriving DecidableEq

/-- `result[name]`. -/
def DomainCheckResult.get (result : DomainCheckResult) : DnsCheckName → DnsCheckOutcome
  | .spf => result.spf
  | .dkim => result.dkim
  | .dmarc => result.dmarc

/-- `DNS_CHECK_NAMES`. -/
def dnsCheckNames : List DnsCheckName := [.spf, .dkim, .dmarc]

/-- `FLIP_AFTER_FAILURES`. -/
def flipAfterFailures : ℕ := 2

/-- `RECHECK_AFTER_PROBLEM_MS`. -/
def recheckAfterProblemMs : ℕ := 60 * 60 * 1000

/-- `DomainCheckState`. -/
structure DomainCheckState where
  spfVerified : Bool := false
  dkimVerified : Bool := false
  dmarcVerified : Bool := false
  verifiedAt : Option Time := none
  consecutiveFailures : ℕ := 0
  deriving DecidableEq

/-- The events of a domain. -/
inductive DomainEvent
  /-- `domain.verified`. -/
  | verified
  /-- `domain.verification_failed`. -/
  | failed
  deriving DecidableEq

/-- `DomainCheckTransition`. -/
structure DomainCheckTransition where
  outcome : DnsCheckStatus
  next : DomainCheckState
  nextCheckAt : ℤ
  event : Option DomainEvent
  failedChecks : List DnsCheckName
  deriving DecidableEq

/-- `overallOutcome`. -/
def overallOutcome (result : DomainCheckResult) : DnsCheckStatus :=
  let statuses := dnsCheckNames.map fun name => (result.get name).status
  if .fail ∈ statuses then .fail else if .unknown ∈ statuses then .unknown else .pass

/-- `nextCheckAfterPass`, with the jitter that was drawn. -/
def nextCheckAfterPass (now : Time) (intervalMs : ℕ) (jitter : ℤ) : ℤ := now + intervalMs + jitter

/-- `nextFlag`. -/
def nextFlag (previous : Bool) (status : DnsCheckStatus) (settle : Bool) : Bool :=
  if status = .pass then true else if status = .fail ∧ settle then false else previous

/-- The failures in a row after a check. -/
def nextFailures (previous : DomainCheckState) (outcome : DnsCheckStatus) : ℕ :=
  match outcome with
  | .pass => 0
  | .fail => previous.consecutiveFailures + 1
  | .unknown => previous.consecutiveFailures

/-- `nextDomainCheckState`. -/
def nextDomainCheckState (previous : DomainCheckState) (result : DomainCheckResult) (now : Time)
    (intervalMs : ℕ) (jitter : ℤ) : DomainCheckTransition :=
  let outcome := overallOutcome result
  let consecutiveFailures := nextFailures previous outcome
  let settled := decide (outcome = .fail ∧ flipAfterFailures ≤ consecutiveFailures)
  let change : Option Time × Option DomainEvent :=
    if outcome = .pass ∧ previous.verifiedAt = none then (some now, some .verified)
    else if settled ∧ previous.verifiedAt ≠ none then (none, some .failed)
    else (previous.verifiedAt, none)
  { outcome
    next :=
      { spfVerified := nextFlag previous.spfVerified result.spf.status settled
        dkimVerified := nextFlag previous.dkimVerified result.dkim.status settled
        dmarcVerified := nextFlag previous.dmarcVerified result.dmarc.status settled
        verifiedAt := change.1
        consecutiveFailures }
    nextCheckAt := if outcome = .pass then nextCheckAfterPass now intervalMs jitter
      else now + recheckAfterProblemMs
    event := change.2
    failedChecks := dnsCheckNames.filter fun name => decide ((result.get name).status = .fail) }

/-! ## What a check changes -/

variable {previous : DomainCheckState} {result : DomainCheckResult} {now : Time} {intervalMs : ℕ}
  {jitter : ℤ}

/-- Every flag is set. -/
def DomainCheckState.AllVerified (state : DomainCheckState) : Prop :=
  state.spfVerified = true ∧ state.dkimVerified = true ∧ state.dmarcVerified = true

/-- No flag of `state` is cleared. -/
def DomainCheckState.Keeps (state next : DomainCheckState) : Prop :=
  (state.spfVerified = true → next.spfVerified = true) ∧
    (state.dkimVerified = true → next.dkimVerified = true) ∧
    (state.dmarcVerified = true → next.dmarcVerified = true)

theorem overallOutcome_eq_pass : overallOutcome result = .pass ↔
    result.spf.status = .pass ∧ result.dkim.status = .pass ∧ result.dmarc.status = .pass := by
  unfold overallOutcome dnsCheckNames
  simp only [DomainCheckResult.get, List.map_cons, List.map_nil]
  cases result.spf.status <;> cases result.dkim.status <;> cases result.dmarc.status <;> decide

theorem nextFlag_of_not_settle {flag : Bool} {status : DnsCheckStatus} (h : flag = true) :
    nextFlag flag status false = true := by
  unfold nextFlag
  split_ifs with h₁ h₂
  · rfl
  · exact absurd h₂.2 (by decide)
  · exact h

/-- **Inversion.** A check passes and verifies, fails for good, or clears nothing. -/
theorem nextDomainCheckState_cases :
    (overallOutcome result = .pass ∧
      (nextDomainCheckState previous result now intervalMs jitter).next.AllVerified ∧
      (nextDomainCheckState previous result now intervalMs jitter).next.consecutiveFailures = 0 ∧
      (nextDomainCheckState previous result now intervalMs jitter).next.verifiedAt =
        previous.verifiedAt.or (some now) ∧
      (nextDomainCheckState previous result now intervalMs jitter).event =
        if previous.verifiedAt = none then some .verified else none) ∨
    (overallOutcome result = .fail ∧ flipAfterFailures ≤ previous.consecutiveFailures + 1 ∧
      (nextDomainCheckState previous result now intervalMs jitter).next.consecutiveFailures =
        previous.consecutiveFailures + 1 ∧
      (nextDomainCheckState previous result now intervalMs jitter).next.verifiedAt = none ∧
      (nextDomainCheckState previous result now intervalMs jitter).event =
        if previous.verifiedAt = none then none else some .failed) ∨
    (overallOutcome result ≠ .pass ∧
      previous.Keeps (nextDomainCheckState previous result now intervalMs jitter).next ∧
      (nextDomainCheckState previous result now intervalMs jitter).next.consecutiveFailures =
        nextFailures previous (overallOutcome result) ∧
      (nextDomainCheckState previous result now intervalMs jitter).next.verifiedAt =
        previous.verifiedAt ∧
      (nextDomainCheckState previous result now intervalMs jitter).event = none) := by
  have hkeeps : ∀ outcome failures, ¬ (outcome = DnsCheckStatus.fail ∧ flipAfterFailures ≤ failures) →
      ∀ flag status, flag = true →
        nextFlag flag status (decide (outcome = .fail ∧ flipAfterFailures ≤ failures)) = true := by
    intro outcome failures hnot flag status hflag
    rw [decide_eq_false hnot]
    exact nextFlag_of_not_settle hflag
  cases houtcome : overallOutcome result with
  | pass =>
    refine .inl ⟨rfl, ?_, ?_, ?_, ?_⟩
    · obtain ⟨hspf, hdkim, hdmarc⟩ := overallOutcome_eq_pass.mp houtcome
      simp [nextDomainCheckState, DomainCheckState.AllVerified, nextFlag, hspf, hdkim, hdmarc]
    · simp [nextDomainCheckState, houtcome, nextFailures]
    · cases hv : previous.verifiedAt <;> simp [nextDomainCheckState, houtcome, hv]
    · cases hv : previous.verifiedAt <;> simp [nextDomainCheckState, houtcome, hv]
  | fail =>
    by_cases hsettled : flipAfterFailures ≤ previous.consecutiveFailures + 1
    · refine .inr (.inl ⟨rfl, hsettled, ?_, ?_, ?_⟩)
      · simp [nextDomainCheckState, houtcome, nextFailures]
      · cases hv : previous.verifiedAt <;>
          simp [nextDomainCheckState, houtcome, nextFailures, hsettled, hv]
      · cases hv : previous.verifiedAt <;>
          simp [nextDomainCheckState, houtcome, nextFailures, hsettled, hv]
    · refine .inr (.inr ⟨by decide, ?_, ?_, ?_, ?_⟩)
      · have hnot : ¬ (overallOutcome result = .fail ∧
            flipAfterFailures ≤ nextFailures previous (overallOutcome result)) := by
          rw [houtcome]
          exact fun h => hsettled h.2
        exact ⟨hkeeps _ _ hnot _ _, hkeeps _ _ hnot _ _, hkeeps _ _ hnot _ _⟩
      · simp [nextDomainCheckState, houtcome]
      · simp [nextDomainCheckState, houtcome, nextFailures, hsettled]
      · simp [nextDomainCheckState, houtcome, nextFailures, hsettled]
  | unknown =>
    refine .inr (.inr ⟨by decide, ?_, ?_, ?_, ?_⟩)
    · have hnot : ¬ (overallOutcome result = .fail ∧
          flipAfterFailures ≤ nextFailures previous (overallOutcome result)) := by
        rw [houtcome]
        exact fun h => absurd h.1 (by decide)
      exact ⟨hkeeps _ _ hnot _ _, hkeeps _ _ hnot _ _, hkeeps _ _ hnot _ _⟩
    · simp [nextDomainCheckState, houtcome]
    · simp [nextDomainCheckState, houtcome]
    · simp [nextDomainCheckState, houtcome]

/-- The DKIM flag is cleared by a comparison that failed. -/
theorem dkim_fail_of_cleared (h : previous.dkimVerified = true)
    (hnext : (nextDomainCheckState previous result now intervalMs jitter).next.dkimVerified = false) :
    result.dkim.status = .fail := by
  have hflag : nextFlag previous.dkimVerified result.dkim.status _ = false := hnext
  unfold nextFlag at hflag
  split_ifs at hflag with h₁ h₂
  · exact h₂.1
  · exact absurd (h.symm.trans hflag) (by decide)

end BunMail.Domains
