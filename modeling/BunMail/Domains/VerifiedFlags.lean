import BunMail.Domains.Verification

/-!
# The flags follow the checks

A flag is cleared, and a verified domain flips, only after two failures since the last pass.  Whether
the check that clears the DKIM flag compared the active key depends on the rotations completed since
it read the row.
-/

namespace BunMail.Domains

open Run

/-! ## What is said of a run -/

/-- Definitive failures since the last pass. -/
def failuresSincePass (outcomes : List DnsCheckStatus) : ℕ :=
  (outcomes.reverse.takeWhile fun outcome => decide (outcome ≠ .pass)).count .fail

/-- The events strictly alternate, `domain.verified` first. -/
def Alternates (events : List DomainEvent) : Prop :=
  events.head? ≠ some .failed ∧ events.IsChain (· ≠ ·)

section Judged

variable (generateKeyPair : ℕ → KeyPair) (decrypts : Text → Bool)

/-- What is said of one step. -/
structure Judged (s : Verification) (a : Step) : Prop where
  /-- The DKIM flag is cleared by a check that compared the active key. -/
  dkim : s.row.dkimVerified = true → (step generateKeyPair decrypts s a).row.dkimVerified = false →
    ∃ i result now intervalMs jitter copy, a = .applyCheck i result now intervalMs jitter ∧
      s.checks.get? i = some copy ∧ copy.key = s.row.activeKey ∧ result.dkim.status = .fail
  /-- Two failures come before a flip, and before a flag is cleared. -/
  failures : (step generateKeyPair decrypts s a).events = s.events ++ [.failed] ∨
      ¬ s.row.Keeps (step generateKeyPair decrypts s a).row.toDomainCheckState →
    flipAfterFailures ≤ failuresSincePass (step generateKeyPair decrypts s a).outcomes
  /-- A check that could not tell changes nothing. -/
  unknown : ∀ i result now intervalMs jitter, a = .applyCheck i result now intervalMs jitter →
    overallOutcome result = .unknown →
      (step generateKeyPair decrypts s a).row.verifiedAt = s.row.verifiedAt ∧
      (step generateKeyPair decrypts s a).row.consecutiveFailures = s.row.consecutiveFailures ∧
      s.row.Keeps (step generateKeyPair decrypts s a).row.toDomainCheckState

/-- What is said of every state. -/
structure Standing (s : Verification) : Prop where
  verified : s.row.verifiedAt ≠ none → s.row.AllVerified
  alternates : Alternates s.events

/-- No rotation was completed between the read of the check and its transaction, or it clears
nothing that is set: its DKIM lookup did not fail, the flag is clear, or it is the first failure. -/
def notRotated (s : Verification) : Step → Bool
  | .applyCheck i result _ _ _ => (s.checks.get? i).all fun copy =>
    copy.rotations == s.rotations || result.dkim.status ≠ .fail || !s.row.dkimVerified ||
      decide (s.row.consecutiveFailures + 1 < flipAfterFailures)
  | _ => true

end Judged

/-! ## Failures and events -/

section Lists

variable {outcomes : List DnsCheckStatus} {events : List DomainEvent}

theorem failuresSincePass_concat (outcome : DnsCheckStatus) :
    failuresSincePass (outcomes ++ [outcome]) =
      match outcome with
      | .pass => 0
      | .fail => failuresSincePass outcomes + 1
      | .unknown => failuresSincePass outcomes := by
  unfold failuresSincePass
  rw [List.reverse_append, List.reverse_singleton, List.singleton_append, List.takeWhile_cons]
  cases outcome <;> simp

theorem alternates_concat (h : Alternates events) {event : DomainEvent}
    (hlast : event = .verified ↔ events.getLast? ≠ some .verified) :
    Alternates (events ++ [event]) := by
  constructor
  · cases hevents : events with
    | nil =>
      have hv := hlast.mpr (by rw [hevents]; simp)
      simp [hv]
    | cons e rest =>
      have hhead := h.1
      rw [hevents] at hhead
      exact hhead
  · refine h.2.append (List.isChain_singleton _) fun last hl first hf => ?_
    rw [List.head?_singleton, Option.mem_some_iff] at hf
    rw [Option.mem_def] at hl
    intro heq
    rw [hl, heq, ← hf] at hlast
    cases event <;> simp_all

end Lists

/-! ## Every run -/

section Runs

variable {generateKeyPair : ℕ → KeyPair} {decrypts : Text → Bool} {s s' : Verification} {a : Step}

/-- What every step keeps. -/
structure Inv (s : Verification) : Prop extends Standing s where
  last : s.events.getLast? = some .verified ↔ s.row.verifiedAt ≠ none
  failures : s.row.consecutiveFailures = failuresSincePass s.outcomes
  copies : ∀ i copy, s.checks.get? i = some copy → copy.rotations ≤ s.rotations ∧
    (copy.rotations = s.rotations → copy.key = s.row.activeKey)

/-- A step that is neither a check nor a switch. -/
theorem Inv.quiet (h : Inv s) (hstate : s'.row.toDomainCheckState = s.row.toDomainCheckState)
    (hkey : s'.row.activeKey = s.row.activeKey) (hevents : s'.events = s.events)
    (houtcomes : s'.outcomes = s.outcomes) (hrotations : s'.rotations = s.rotations)
    (hchecks : ∀ i copy, s'.checks.get? i = some copy →
      s.checks.get? i = some copy ∨ copy = ⟨s.row.activeKey, s.rotations⟩) : Inv s' := by
  refine ⟨⟨?_, ?_⟩, ?_, ?_, fun i copy hcopy => ?_⟩
  · rw [hstate]
    exact h.verified
  · rw [hevents]
    exact h.alternates
  · rw [hstate, hevents]
    exact h.last
  · rw [hstate, houtcomes]
    exact h.failures
  · rw [hrotations, hkey]
    rcases hchecks i copy hcopy with hold | rfl
    · exact h.copies i copy hold
    · exact ⟨le_rfl, fun _ => rfl⟩

theorem judged_of_quiet
    (hstate : (step generateKeyPair decrypts s a).row.toDomainCheckState = s.row.toDomainCheckState)
    (hevents : (step generateKeyPair decrypts s a).events = s.events) :
    Judged generateKeyPair decrypts s a := by
  constructor
  · intro hset hclear
    rw [hstate, hset] at hclear
    cases hclear
  · rintro (hfailed | hkeeps)
    · rw [hevents] at hfailed
      simp at hfailed
    · rw [hstate] at hkeeps
      exact absurd ⟨fun h => h, fun h => h, fun h => h⟩ hkeeps
  · intro i result now intervalMs jitter _ _
    rw [hstate]
    exact ⟨rfl, rfl, fun h => h, fun h => h, fun h => h⟩

theorem get?_of_deleteWhere {β : Type} {t : Table (Prod.fst : ℕ × β → ℕ)} {i j : ℕ} {v : β}
    (h : (t.deleteWhere fun e => decide (e.1 = i)).get? j = some v) : t.get? j = some v := by
  rw [Table.get?_deleteWhere] at h
  exact (Option.filter_eq_some_iff.mp h).1

/-- The state of the checks after one, with its event. -/
theorem standing_after (h : Inv s) {result : DomainCheckResult} {now : Time} {intervalMs : ℕ}
    {jitter : ℤ} :
    ((nextDomainCheckState s.row.toDomainCheckState result now intervalMs jitter).next.verifiedAt ≠
        none →
      (nextDomainCheckState s.row.toDomainCheckState result now intervalMs jitter).next.AllVerified) ∧
    Alternates (s.events ++
      (nextDomainCheckState s.row.toDomainCheckState result now intervalMs jitter).event.toList) ∧
    ((s.events ++ (nextDomainCheckState s.row.toDomainCheckState result now intervalMs
        jitter).event.toList).getLast? = some .verified ↔
      (nextDomainCheckState s.row.toDomainCheckState result now intervalMs jitter).next.verifiedAt ≠
        none) := by
  rcases nextDomainCheckState_cases with
    ⟨-, hall, -, hat, hevent⟩ | ⟨-, -, -, hat, hevent⟩ | ⟨-, hkeeps, -, hat, hevent⟩
  · rw [hat, hevent]
    refine ⟨fun _ => hall, ?_, ?_⟩
    · split_ifs with hnone
      · refine alternates_concat h.alternates (iff_of_true rfl ?_)
        rw [ne_eq, h.last, not_not]
        exact hnone
      · simpa using h.alternates
    · split_ifs with hnone
      · simp [hnone]
      · have hlast := h.last.mpr hnone
        cases hv : s.row.verifiedAt with
        | none => exact absurd hv hnone
        | some at_ => simpa [hv] using hlast
  · rw [hat, hevent]
    refine ⟨fun hne => absurd rfl hne, ?_, ?_⟩
    · split_ifs with hnone
      · simpa using h.alternates
      · refine alternates_concat h.alternates (iff_of_false (by decide) ?_)
        rw [not_not]
        exact h.last.mpr hnone
    · split_ifs with hnone
      · have hlast := h.last
        rw [hnone] at hlast
        simpa using hlast
      · simp
  · rw [hat, hevent]
    refine ⟨fun hne => ?_, ?_, ?_⟩
    · obtain ⟨h₁, h₂, h₃⟩ := h.verified hne
      exact ⟨hkeeps.1 h₁, hkeeps.2.1 h₂, hkeeps.2.2 h₃⟩
    · simpa using h.alternates
    · simpa using h.last

theorem failures_after (h : Inv s) {result : DomainCheckResult} {now : Time} {intervalMs : ℕ}
    {jitter : ℤ} : (nextDomainCheckState s.row.toDomainCheckState result now intervalMs
      jitter).next.consecutiveFailures = failuresSincePass (s.outcomes ++ [overallOutcome result]) := by
  rw [failuresSincePass_concat, ← h.failures]
  show nextFailures _ _ = _
  cases overallOutcome result <;> rfl

/-- **A check.** -/
theorem inv_applyCheck (h : Inv s) (i : ℕ) (result : DomainCheckResult) (now : Time)
    (intervalMs : ℕ) (jitter : ℤ) :
    Inv { applyDomainCheck s result now intervalMs jitter with
      checks := s.checks.deleteWhere fun e => decide (e.1 = i) } := by
  obtain ⟨hverified, halternates, hlast⟩ := @standing_after s h result now intervalMs jitter
  exact ⟨⟨hverified, halternates⟩, hlast, @failures_after s h result now intervalMs jitter,
    fun j copy hcopy => h.copies j copy (get?_of_deleteWhere hcopy)⟩

theorem judged_applyCheck (h : Inv s) {i : ℕ} {result : DomainCheckResult} {now : Time}
    {intervalMs : ℕ} {jitter : ℤ} {copy : CheckCopy} (hcopy : s.checks.get? i = some copy)
    (hstep : step generateKeyPair decrypts s (.applyCheck i result now intervalMs jitter) =
      { applyDomainCheck s result now intervalMs jitter with
        checks := s.checks.deleteWhere fun e => decide (e.1 = i) })
    (hrotated : notRotated s (.applyCheck i result now intervalMs jitter) = true) :
    Judged generateKeyPair decrypts s (.applyCheck i result now intervalMs jitter) := by
  have hfailures := @failures_after s h result now intervalMs jitter
  constructor
  · intro hset hclear
    rw [hstep] at hclear
    have hfail := @dkim_fail_of_cleared s.row.toDomainCheckState result now intervalMs jitter hset
      hclear
    refine ⟨i, result, now, intervalMs, jitter, copy, rfl, hcopy, ?_, hfail⟩
    refine (h.copies i copy hcopy).2 ?_
    simp only [notRotated, hcopy, Option.all_some, hset, hfail, Bool.or_eq_true, beq_iff_eq,
      Bool.not_true, ne_eq, not_true_eq_false, decide_false, Bool.false_eq_true, or_false,
      decide_eq_true_eq] at hrotated
    rcases hrotated with hsame | hfirst
    · exact hsame
    · -- a first failure keeps the flag
      exfalso
      rcases @nextDomainCheckState_cases s.row.toDomainCheckState result now intervalMs jitter with
        ⟨-, hall, -⟩ | ⟨-, hsettled, -⟩ | ⟨-, hkeeps, -⟩
      · exact Bool.false_ne_true (hclear.symm.trans hall.2.1)
      · omega
      · exact Bool.false_ne_true (hclear.symm.trans (hkeeps.2.1 hset))
  · rw [hstep]
    intro hflip
    have hout : (applyDomainCheck s result now intervalMs jitter).outcomes =
        s.outcomes ++ [overallOutcome result] := rfl
    show flipAfterFailures ≤ failuresSincePass (applyDomainCheck s result now intervalMs jitter).outcomes
    rw [hout, ← hfailures]
    have hevents : (applyDomainCheck s result now intervalMs jitter).events = s.events ++
      (nextDomainCheckState s.row.toDomainCheckState result now intervalMs jitter).event.toList := rfl
    rcases @nextDomainCheckState_cases s.row.toDomainCheckState result now intervalMs jitter with
      ⟨-, hall, -, -, hevent⟩ | ⟨-, hsettled, hcount, -, -⟩ | ⟨-, hkeeps, -, -, hevent⟩
    · exfalso
      rcases hflip with hfailed | hnot
      · have hlist := List.append_cancel_left (hevents.symm.trans hfailed)
        rw [hevent] at hlist
        split_ifs at hlist <;> simp at hlist
      · exact hnot ⟨fun _ => hall.1, fun _ => hall.2.1, fun _ => hall.2.2⟩
    · rw [hcount]
      exact hsettled
    · exfalso
      rcases hflip with hfailed | hnot
      · have hlist := List.append_cancel_left (hevents.symm.trans hfailed)
        rw [hevent] at hlist
        simp at hlist
      · exact hnot hkeeps
  · intro i' result' now' intervalMs' jitter' heq hunknown
    cases heq
    rw [hstep]
    rcases @nextDomainCheckState_cases s.row.toDomainCheckState result now intervalMs jitter with
      ⟨hpass, -⟩ | ⟨hfail, -⟩ | ⟨-, hkeeps, hcount, hat, -⟩
    · rw [hunknown] at hpass
      cases hpass
    · rw [hunknown] at hfail
      cases hfail
    · rw [hunknown] at hcount
      exact ⟨hat, hcount, hkeeps⟩

/-- A switch to the pending key: the flag is set, and every check under way is outdated. -/
theorem inv_switch (h : Inv s) {row : DomainRow} {completions : Table (Prod.fst : ℕ × Completion → ℕ)}
    {replaced : Option (Text × Option Text)}
    (hrow : row.toDomainCheckState = { s.row.toDomainCheckState with dkimVerified := true }) :
    Inv { s with row, completions, rotations := s.rotations + 1, replaced } := by
  refine ⟨⟨?_, h.alternates⟩, ?_, ?_, fun i copy hcopy => ?_⟩
  · rw [hrow]
    exact fun hne => ⟨(h.verified hne).1, rfl, (h.verified hne).2.2⟩
  · rw [hrow]
    exact h.last
  · rw [hrow]
    exact h.failures
  · have hle := (h.copies i copy hcopy).1
    refine ⟨Nat.le_succ_of_le hle, fun heq => ?_⟩
    dsimp only at heq
    omega

/-- **One step.** -/
theorem inv_step (h : Inv s) (a : Step) : Inv (step generateKeyPair decrypts s a) ∧
    (notRotated s a = true → Judged generateKeyPair decrypts s a) := by
  have hsame : ∀ {t : Verification}, step generateKeyPair decrypts s a = t →
      t.row.toDomainCheckState = s.row.toDomainCheckState → t.row.activeKey = s.row.activeKey →
      t.events = s.events → t.outcomes = s.outcomes → t.rotations = s.rotations →
      t.checks = s.checks → Inv (step generateKeyPair decrypts s a) ∧
        (notRotated s a = true → Judged generateKeyPair decrypts s a) := by
    rintro t rfl hstate hkey hevents houtcomes hrotations hchecks
    refine ⟨h.quiet hstate hkey hevents houtcomes hrotations fun i copy hcopy => ?_,
      fun _ => judged_of_quiet hstate hevents⟩
    exact .inl (hchecks ▸ hcopy)
  cases a with
  | readCheck i =>
    cases hcopy : s.checks.get? i with
    | some copy => exact hsame (t := s) (by simp [step, hcopy]) rfl rfl rfl rfl rfl rfl
    | none =>
      have hstep : step generateKeyPair decrypts s (.readCheck i) =
          { s with checks := s.checks.put i ⟨s.row.activeKey, s.rotations⟩ } := by
        simp [step, hcopy]
      refine ⟨?_, fun _ => judged_of_quiet (by rw [hstep]) (by rw [hstep])⟩
      rw [hstep]
      refine h.quiet rfl rfl rfl rfl rfl fun j copy hj => ?_
      rw [Table.get?_put] at hj
      split_ifs at hj
      · exact .inr (Option.some.inj hj).symm
      · exact .inl hj
  | applyCheck i result now intervalMs jitter =>
    cases hcopy : s.checks.get? i with
    | none => exact hsame (t := s) (by simp [step, hcopy]) rfl rfl rfl rfl rfl rfl
    | some copy =>
      have hstep : step generateKeyPair decrypts s (.applyCheck i result now intervalMs jitter) =
          { applyDomainCheck s result now intervalMs jitter with
            checks := s.checks.deleteWhere fun e => decide (e.1 = i) } := by
        simp [step, hcopy]
      refine ⟨?_, judged_applyCheck h hcopy hstep⟩
      rw [hstep]
      exact inv_applyCheck h i result now intervalMs jitter
  | start now =>
    rcases @start_cases generateKeyPair decrypts s now with ⟨e, -, hstep⟩ | ⟨row, hrow, hstep⟩
    · exact hsame hstep rfl rfl rfl rfl rfl rfl
    · obtain ⟨-, hrow⟩ := startDkimRotation_ok hrow
      refine hsame hstep ?_ ?_ rfl rfl rfl rfl
      · rw [hrow]
      · rw [hrow]
        rfl
  | read i =>
    rcases @read_cases generateKeyPair decrypts s i with hstep | ⟨key, -, hstep⟩
    · exact hsame hstep rfl rfl rfl rfl rfl rfl
    · exact hsame hstep rfl rfl rfl rfl rfl rfl
  | lookUp i resolveTxt =>
    rcases @lookUp_cases generateKeyPair decrypts s i resolveTxt with hstep | ⟨c, -, hstep⟩
    · exact hsame hstep rfl rfl rfl rfl rfl rfl
    · exact hsame hstep rfl rfl rfl rfl rfl rfl
  | complete i now =>
    rcases @complete_cases generateKeyPair decrypts s i now with
      ⟨completions, -, hstep⟩ | ⟨c, resolveTxt, row, -, -, -, hrow, hstep⟩
    · exact hsame hstep rfl rfl rfl rfl rfl rfl
    · have hstate : row.toDomainCheckState =
          { s.row.toDomainCheckState with dkimVerified := true } := by
        rw [(completeDkimRotation_ok hrow).2.2]
      refine ⟨hstep ▸ inv_switch h hstate, fun _ => ?_⟩
      constructor
      · intro _ hclear
        rw [hstep, hstate] at hclear
        cases hclear
      · rw [hstep]
        rintro (hfailed | hkeeps)
        · simp at hfailed
        · rw [hstate] at hkeeps
          exact absurd ⟨fun h => h, fun _ => rfl, fun h => h⟩ hkeeps
      · intro i result now intervalMs jitter heq
        cases heq
  | cancel =>
    rcases @cancel_cases generateKeyPair decrypts s with hstep | ⟨row, hrow, hstep⟩
    · exact hsame hstep rfl rfl rfl rfl rfl rfl
    · have hrow := cancelDkimRotation_ok hrow
      refine hsame hstep ?_ ?_ rfl rfl rfl rfl
      · rw [hrow]
      · rw [hrow]
        rfl

theorem inv_created (name selector : Text) : Inv (created generateKeyPair name selector) := by
  refine ⟨⟨fun hne => absurd rfl hne, ⟨?_, List.isChain_nil⟩⟩, ?_, rfl, fun i copy hcopy => ?_⟩
  · rintro ⟨⟩
  · exact ⟨fun h => (by cases h), fun hne => absurd rfl hne⟩
  · cases hcopy

/-- **The verification follows the key it judges.** In every run from the creation of a domain in
which no check that clears the DKIM flag is overtaken by a rotation, every flag is cleared by a check
of the active key, after two failures; `verifiedAt` is set only with all flags, and the events
alternate. -/
theorem judged_of_notRotated (generateKeyPair : ℕ → KeyPair) (decrypts : Text → Bool)
    (name selector : Text) (steps : List Step)
    (h : Along (step generateKeyPair decrypts) (fun s a => notRotated s a = true)
      (created generateKeyPair name selector) steps) :
    Along (step generateKeyPair decrypts) (Judged generateKeyPair decrypts)
        (created generateKeyPair name selector) steps ∧
      Standing (run (step generateKeyPair decrypts) (created generateKeyPair name selector)
        steps) := by
  have hinv := @inv_created generateKeyPair name selector
  refine ⟨Along.of_invariant Inv (fun s a hs _ => (inv_step hs a).1)
    (fun s a hs ha => (inv_step hs a).2 ha) hinv h, ?_⟩
  exact (Run.invariant Inv (fun s a hs _ => (inv_step hs a).1) hinv h).toStanding

/-- A check that passes verifies the domain; a second failure flips it. -/
theorem judged_of_notRotated_flip :
    let pairs : ℕ → KeyPair := fun n => ⟨Text.decimal n, Text.decimal n⟩
    let pass : DnsCheckOutcome := ⟨.pass, []⟩
    let failing : DomainCheckResult := ⟨pass, ⟨.fail, []⟩, pass, 0⟩
    let steps : List Step := [.readCheck 0, .applyCheck 0 ⟨pass, pass, pass, 0⟩ 0 0 0,
      .readCheck 1, .applyCheck 1 failing 0 0 0, .readCheck 2, .applyCheck 2 failing 0 0 0]
    Along (step pairs fun _ => true) (fun s a => notRotated s a = true) (created pairs [] ['s']) steps ∧
      Along (step pairs fun _ => true) (Judged pairs fun _ => true) (created pairs [] ['s']) steps ∧
      (run (step pairs fun _ => true) (created pairs [] ['s']) steps).events = [.verified, .failed] := by
  intro pairs pass failing steps
  have h : Along (step pairs fun _ => true) (fun s a => notRotated s a = true)
      (created pairs [] ['s']) steps := by
    decide +kernel
  exact ⟨h, (judged_of_notRotated pairs (fun _ => true) [] ['s'] steps h).1, by decide +kernel⟩

/-- A check that read the row before a rotation, applied after it, clears the flag of the new key:
it had compared the old one. -/
theorem not_judged_rotated :
    let pairs : ℕ → KeyPair := fun n => ⟨Text.decimal n, Text.decimal n⟩
    let pass : DnsCheckOutcome := ⟨.pass, []⟩
    let failing : DomainCheckResult := ⟨pass, ⟨.fail, []⟩, pass, 0⟩
    let published : Text → TxtAnswer := fun _ => .records [["v=DKIM1; k=rsa; p=1"]]
    ¬ Along (step pairs fun _ => true) (Judged pairs fun _ => true) (created pairs [] ['s'])
      ([.readCheck 0, .applyCheck 0 ⟨pass, pass, pass, 0⟩ 0 0 0, .start 0,
        .readCheck 1, .applyCheck 1 failing 0 0 0, .readCheck 2,
        .read 0, .lookUp 0 published, .complete 0 0] ++ [.applyCheck 2 failing 0 0 0]) := by
  intro pairs pass failing published h
  obtain ⟨i, result, now, intervalMs, jitter, copy, heq, hcopy, hkey, -⟩ :=
    (along_iff_forall_concat.mp h _ _ List.prefix_rfl).dkim (by decide +kernel) (by decide +kernel)
  cases heq
  -- the check holds the key of the selector `s`, and the active one has the dated selector
  have hold : (some copy).map CheckCopy.key = some (['s'], some ['0']) := by
    rw [← hcopy]
    decide +kernel
  rw [Option.map_some, Option.some.injEq] at hold
  rw [hold] at hkey
  revert hkey
  decide +kernel

end Runs

end BunMail.Domains
