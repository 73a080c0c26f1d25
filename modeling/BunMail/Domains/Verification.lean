import BunMail.Domains.Rotation
import BunMail.Lib.Run
import BunMail.Lib.Table

/-!
# Checks and rotations of one domain

The calls of `verifyDomain` and of the rotation on one domain, interleaved.  A check, and completing
a rotation, read the row before their lookups; every transaction locks the row, so that it is one
step.
-/

namespace BunMail.Domains

/-- What a check has read: the key it compares, and how many rotations had been completed. -/
structure CheckCopy where
  key : Text × Option Text
  rotations : ℕ
  deriving DecidableEq

/-- A completion under way: the pending key it has read, which of the generated pairs that was, and
the lookup, once made. -/
structure Completion where
  key : PendingKey
  pair : ℕ
  resolved : Option (Text → TxtAnswer) := none

/-- The row of the domain, its events, and the calls between their read and their transaction.  The
last six fields only record what happened: the outcomes of the checks, how many rotations were
completed, how many pairs were generated, under which selectors they were stored, which of them was
the last, and what was active before the last switch. -/
structure Verification where
  row : DomainRow
  events : List DomainEvent := []
  checks : Table (Prod.fst : ℕ × CheckCopy → ℕ) := Table.empty
  completions : Table (Prod.fst : ℕ × Completion → ℕ) := Table.empty
  outcomes : List DnsCheckStatus := []
  rotations : ℕ := 0
  generated : ℕ := 1
  stored : List (Text × ℕ) := []
  pending : ℕ := 0
  replaced : Option (Text × Option Text) := none

/-- What happens next. -/
inductive Step
  /-- `verifyDomain` of the call `i` reads the row. -/
  | readCheck (i : ℕ)
  /-- `applyDomainCheck` of its result. -/
  | applyCheck (i : ℕ) (result : DomainCheckResult) (now : Time) (intervalMs : ℕ) (jitter : ℤ)
  /-- `startDkimRotation`. -/
  | start (now : Time)
  /-- `completeDkimRotation` of the call `i` reads the row. -/
  | read (i : ℕ)
  /-- Its lookup. -/
  | lookUp (i : ℕ) (resolveTxt : Text → TxtAnswer)
  /-- Its transaction. -/
  | complete (i : ℕ) (now : Time)
  /-- `cancelDkimRotation`. -/
  | cancel

/-- The key that a check compares. -/
def DomainRow.activeKey (row : DomainRow) : Text × Option Text :=
  (row.dkimSelector, row.dkimPublicKey)

/-- `applyDomainCheck`. -/
def applyDomainCheck (s : Verification) (result : DomainCheckResult) (now : Time) (intervalMs : ℕ)
    (jitter : ℤ) : Verification :=
  let transition := nextDomainCheckState s.row.toDomainCheckState result now intervalMs jitter
  { s with
    row := { s.row with toDomainCheckState := transition.next }
    events := s.events ++ transition.event.toList
    outcomes := s.outcomes ++ [transition.outcome] }

section Calls

variable (generateKeyPair : ℕ → KeyPair) (decrypts : Text → Bool)

/-- `createDomain`. -/
def created (name selector : Text) : Verification where
  row := createDomain name selector (generateKeyPair 0)
  stored := [(selector, 0)]

/-- How the call ends that takes the step: with an error when it throws. -/
def answer (s : Verification) : Step → Except DkimRotationError Unit
  | .start now => (startDkimRotation s.row (generateKeyPair s.generated) now).map fun _ => ()
  | .read _ => (readPending decrypts s.row).map fun _ => ()
  | .complete i now => ((s.completions.get? i).bind fun c => c.resolved.map fun resolveTxt =>
      let check := checkDkimKeyPublished s.row.name c.key.selector c.key.publicKey resolveTxt
      if check.ok then (completeDkimRotation s.row c.key now).map fun _ => ()
      else .error ⟨.DKIM_PENDING_NOT_PUBLISHED, check.reason⟩).getD (.ok ())
  | .cancel => (cancelDkimRotation s.row).map fun _ => ()
  | _ => .ok ()

/-- The row that a transaction leaves, or what was there before one that threw. -/
def committed (s : Verification) (row : Except DkimRotationError DomainRow)
    (record : DomainRow → Verification) : Verification :=
  row.toOption.elim s record

/-- What happens. -/
def step (s : Verification) : Step → Verification
  | .readCheck i =>
    if (s.checks.get? i).isSome then s
    else { s with checks := s.checks.put i ⟨s.row.activeKey, s.rotations⟩ }
  | .applyCheck i result now intervalMs jitter =>
    if (s.checks.get? i).isSome then
      { applyDomainCheck s result now intervalMs jitter with
        checks := s.checks.deleteWhere fun e => decide (e.1 = i) }
    else s
  | .start now =>
    -- every call generates a pair of its own, whether it is stored or not
    committed { s with generated := s.generated + 1 }
      (startDkimRotation s.row (generateKeyPair s.generated) now) fun row =>
        { s with
          row
          generated := s.generated + 1
          stored := s.stored ++ row.dkimPendingSelector.toList.map (·, s.generated)
          pending := s.generated }
  | .read i =>
    if (s.completions.get? i).isSome then s
    else (readPending decrypts s.row).toOption.elim s fun key =>
      { s with completions := s.completions.put i { key, pair := s.pending } }
  | .lookUp i resolveTxt => (s.completions.get? i).elim s fun c =>
    if c.resolved.isSome then s
    else { s with completions := s.completions.put i { c with resolved := some resolveTxt } }
  | .complete i now => ((s.completions.get? i).bind fun c => c.resolved.map fun resolveTxt =>
      let ended := { s with completions := s.completions.deleteWhere fun e => decide (e.1 = i) }
      if (checkDkimKeyPublished s.row.name c.key.selector c.key.publicKey resolveTxt).ok then
        committed ended (completeDkimRotation s.row c.key now) fun row =>
          { ended with
            row
            rotations := s.rotations + 1
            replaced := some s.row.activeKey }
      else ended).getD s
  | .cancel => committed s (cancelDkimRotation s.row) fun row => { s with row }

/-! ## What the steps do -/

variable {generateKeyPair decrypts} {s : Verification} {i : ℕ} {now : Time}

theorem start_cases :
    (∃ e, startDkimRotation s.row (generateKeyPair s.generated) now = .error e ∧
      step generateKeyPair decrypts s (.start now) = { s with generated := s.generated + 1 }) ∨
    ∃ row, startDkimRotation s.row (generateKeyPair s.generated) now = .ok row ∧
      step generateKeyPair decrypts s (.start now) =
        { s with
          row
          generated := s.generated + 1
          stored := s.stored ++ row.dkimPendingSelector.toList.map (·, s.generated)
          pending := s.generated } := by
  cases h : startDkimRotation s.row (generateKeyPair s.generated) now with
  | error e => exact .inl ⟨e, rfl, by simp [step, committed, h, Except.toOption]⟩
  | ok row => exact .inr ⟨row, rfl, by simp [step, committed, h, Except.toOption]⟩

theorem read_cases : step generateKeyPair decrypts s (.read i) = s ∨
    ∃ key, readPending decrypts s.row = .ok key ∧ step generateKeyPair decrypts s (.read i) =
      { s with completions := s.completions.put i { key, pair := s.pending } } := by
  cases hc : s.completions.get? i with
  | some c => exact .inl (by simp [step, hc])
  | none =>
    cases h : readPending decrypts s.row with
    | error e => exact .inl (by simp [step, hc, h, Except.toOption])
    | ok key => exact .inr ⟨key, rfl, by simp [step, hc, h, Except.toOption]⟩

theorem lookUp_cases {resolveTxt : Text → TxtAnswer} :
    step generateKeyPair decrypts s (.lookUp i resolveTxt) = s ∨
    ∃ c, s.completions.get? i = some c ∧ step generateKeyPair decrypts s (.lookUp i resolveTxt) =
      { s with completions := s.completions.put i { c with resolved := some resolveTxt } } := by
  cases hc : s.completions.get? i with
  | none => exact .inl (by simp [step, hc])
  | some c =>
    cases hr : c.resolved with
    | some r => exact .inl (by simp [step, hc, hr])
    | none => exact .inr ⟨c, rfl, by simp [step, hc, hr]⟩

/-- Completing a rotation changes nothing, or switches to the key it has read and looked up. -/
theorem complete_cases :
    (∃ completions, (∀ j c, completions.get? j = some c → s.completions.get? j = some c) ∧
      step generateKeyPair decrypts s (.complete i now) = { s with completions }) ∨
    ∃ c resolveTxt row, s.completions.get? i = some c ∧ c.resolved = some resolveTxt ∧
      (checkDkimKeyPublished s.row.name c.key.selector c.key.publicKey resolveTxt).ok = true ∧
      completeDkimRotation s.row c.key now = .ok row ∧
      step generateKeyPair decrypts s (.complete i now) =
        { s with
          row
          completions := s.completions.deleteWhere fun e => decide (e.1 = i)
          rotations := s.rotations + 1
          replaced := some s.row.activeKey } := by
  have hdelete : ∀ j c, (s.completions.deleteWhere fun e => decide (e.1 = i)).get? j = some c →
      s.completions.get? j = some c := by
    intro j c hj
    rw [Table.get?_deleteWhere] at hj
    exact (Option.filter_eq_some_iff.mp hj).1
  cases hc : s.completions.get? i with
  | none => exact .inl ⟨s.completions, fun _ _ h => h, by simp [step, hc]⟩
  | some c =>
    cases hr : c.resolved with
    | none => exact .inl ⟨s.completions, fun _ _ h => h, by simp [step, hc, hr]⟩
    | some resolveTxt =>
      cases hok : (checkDkimKeyPublished s.row.name c.key.selector c.key.publicKey resolveTxt).ok with
      | false => exact .inl ⟨_, hdelete, by simp [step, hc, hr, hok]⟩
      | true =>
        cases h : completeDkimRotation s.row c.key now with
        | error e =>
          exact .inl ⟨_, hdelete, by simp [step, committed, hc, hr, hok, h, Except.toOption]⟩
        | ok row =>
          refine .inr ⟨c, resolveTxt, row, rfl, hr, hok, h, ?_⟩
          simp [step, committed, hc, hr, hok, h, Except.toOption]

theorem cancel_cases : step generateKeyPair decrypts s .cancel = s ∨
    ∃ row, cancelDkimRotation s.row = .ok row ∧
      step generateKeyPair decrypts s .cancel = { s with row } := by
  cases h : cancelDkimRotation s.row with
  | error e => exact .inl (by simp [step, committed, h, Except.toOption])
  | ok row => exact .inr ⟨row, rfl, by simp [step, committed, h, Except.toOption]⟩

end Calls

end BunMail.Domains
