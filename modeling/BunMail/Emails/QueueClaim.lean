import BunMail.Emails.Schema

/-!
# Claims and leases

A worker claims a due row: it becomes `sending` with one more attempt, under a lease in the
worker's name.  Every later write of the worker to the row is conditional on `heldBy`: the row is
still sending, locked by this worker, and counts the attempts the claim was made with.
-/

namespace BunMail.Emails

/-- `LEASE_MINUTES`, in milliseconds. -/
def LEASE_MS : ℕ := 15 * 60 * 1000

/-- A claimed row with its age on the database clock. -/
structure ClaimedEmail extends EmailRow where
  ageMs : ℚ
  deriving DecidableEq

/-- `LEASE_EXPIRED`: a row without a lease counts as leased until 15 minutes after its last
update. -/
def leaseExpired (now : Time) (row : EmailRow) : Bool :=
  row.leaseUntil.getD (row.updatedAt + LEASE_MS) < now

/-- The eligibility test of `fairDueEmailIds`: due, or left by a worker whose lease expired. -/
def claimable (now : Time) (row : EmailRow) : Bool :=
  row.deletedAt.isNone &&
    (row.status = .queued && row.nextAttemptAt ≤ now || row.status = .sending && leaseExpired now row)

/-- `claimNextEmails` on one row, at the instant `now` of the database clock and `appNow` of the
worker's. -/
def claimNextEmails (workerId : Text) (now appNow : Time) (row : EmailRow) : Option ClaimedEmail :=
  if claimable now row then
    some { row with
      status := .sending
      attempts := row.attempts + 1
      lockedBy := some workerId
      leaseUntil := some (now + LEASE_MS)
      updatedAt := appNow
      ageMs := (now : ℚ) - row.createdAt }
  else none

/-- One claim of a row: its id and its `attempts` at claim time. -/
structure Claim where
  emailId : Text
  attempt : ℕ
  deriving DecidableEq

/-- Matches the row while this exact claim still holds it. -/
def heldBy (workerId : Text) (claim : Claim) (row : EmailRow) : Bool :=
  row.id = claim.emailId && row.lockedBy = some workerId && row.attempts = claim.attempt &&
    row.status = .sending

/-- Extends the lease of a claim that still holds the row; whether it did. -/
def renewLease (workerId : Text) (claim : Claim) (now : Time) (row : EmailRow) : EmailRow × Bool :=
  if heldBy workerId claim row then ({ row with leaseUntil := some (now + LEASE_MS) }, true)
  else (row, false)

/-- Expires the lease on a row this process is sending. -/
def releaseOwnLeases (workerId : Text) (now : Time) (row : EmailRow) : EmailRow :=
  if row.lockedBy = some workerId ∧ row.status = .sending then { row with leaseUntil := some now }
  else row

/-- Writes the outcome and releases the lease if this claim still holds the row; whether it
did. -/
def releaseRow (workerId : Text) (claim : Claim) (values : RowValues) (now appNow : Time)
    (row : EmailRow) : EmailRow × Bool :=
  if heldBy workerId claim row then
    ({ values.apply now row with lockedBy := none, leaseUntil := none, updatedAt := appNow }, true)
  else (row, false)

/-! ## The outcomes the code writes -/

/-- A final status, a requeue that leaves the counter alone, or the deferral that sets it back
to what it was before the claim. -/
def RowValues.writable (values : RowValues) (claim : Claim) : Bool :=
  values.status.final && values.attempts = none ||
    values.status = .queued && (values.attempts = none || values.attempts = some (claim.attempt - 1))

section Lemmas

variable {workerId : Text} {claim : Claim} {values : RowValues} {now appNow : Time} {row : EmailRow}

theorem heldBy_iff : heldBy workerId claim row = true ↔
    row.id = claim.emailId ∧ row.lockedBy = some workerId ∧ row.attempts = claim.attempt ∧
      row.status = .sending := by
  unfold heldBy
  simp only [Bool.and_eq_true, decide_eq_true_eq, and_assoc]

/-- What a claim changes. -/
theorem claimNextEmails_eq_some {email : ClaimedEmail}
    (h : claimNextEmails workerId now appNow row = some email) :
    claimable now row = true ∧ email = { row with
      status := .sending
      attempts := row.attempts + 1
      lockedBy := some workerId
      leaseUntil := some (now + LEASE_MS)
      updatedAt := appNow
      ageMs := (now : ℚ) - row.createdAt } := by
  unfold claimNextEmails at h
  split_ifs at h with hc
  exact ⟨hc, (Option.some.inj h).symm⟩

theorem not_final_of_claimable (h : claimable now row = true) : row.status.final = false := by
  unfold claimable at h
  cases hs : row.status with
  | queued => rfl
  | sending => rfl
  | _ => simp [hs] at h

theorem renewLease_snd : (renewLease workerId claim now row).2 = heldBy workerId claim row := by
  unfold renewLease
  split_ifs with h
  · exact h.symm
  · exact ((Bool.not_eq_true _).mp h).symm

theorem releaseRow_snd :
    (releaseRow workerId claim values now appNow row).2 = heldBy workerId claim row := by
  unfold releaseRow
  split_ifs with h
  · exact h.symm
  · exact ((Bool.not_eq_true _).mp h).symm

theorem id_releaseRow : (releaseRow workerId claim values now appNow row).1.id = row.id := by
  unfold releaseRow
  split_ifs <;> rfl

theorem releaseRow_of_not_heldBy (h : heldBy workerId claim row = false) :
    releaseRow workerId claim values now appNow row = (row, false) := by
  unfold releaseRow
  rw [h]
  rfl

theorem status_ne_sending_of_writable (h : values.writable claim = true) :
    values.status ≠ .sending := by
  intro hs
  simp [RowValues.writable, hs, EmailStatus.final] at h

end Lemmas

end BunMail.Emails
