import BunMail.Domains.Verification

/-!
# The keys of a rotation

The active and the pending columns are each of one generated pair, and the active ones change only to
the pending key that was found published.
-/

namespace BunMail.Domains

open Run

/-! ## What is said of a run -/

/-- The active selector and keys. -/
def DomainRow.active (row : DomainRow) : Text × Option Text × Option Text :=
  (row.dkimSelector, row.dkimPrivateKey, row.dkimPublicKey)

/-- The pending selector and keys. -/
def DomainRow.pending (row : DomainRow) : Option Text × Option Text × Option Text :=
  (row.dkimPendingSelector, row.dkimPendingPrivateKey, row.dkimPendingPublicKey)

section Unmixed

variable (generateKeyPair : ℕ → KeyPair) (decrypts : Text → Bool)

/-- What is said of every state. -/
structure Unmixed (s : Verification) : Prop where
  /-- The active selector and keys were stored together, from one pair. -/
  active : ∃ e ∈ s.stored, s.row.active =
    (e.1, some (generateKeyPair e.2).privateKey, some (generateKeyPair e.2).publicKey)
  /-- So were the pending ones, or all four columns are null. -/
  pending : s.row.pending = (none, none, none) ∧ s.row.dkimPendingCreatedAt = none ∨
    s.row.dkimPendingCreatedAt ≠ none ∧ ∃ e ∈ s.stored, e.2 = s.pending ∧ s.row.pending =
      (some e.1, some (generateKeyPair e.2).privateKey, some (generateKeyPair e.2).publicKey)
  /-- The pending selector is neither the active nor the previous one. -/
  fresh : ∀ selector, s.row.dkimPendingSelector = some selector →
    selector ≠ s.row.dkimSelector ∧ some selector ≠ s.row.dkimPreviousSelector
  /-- The previous key is the one that the last switch replaced. -/
  previous : s.row.dkimPreviousSelector = s.replaced.map Prod.fst ∧
    s.row.dkimPreviousPublicKey = s.replaced.bind Prod.snd

/-- What is said of one step. -/
structure Switches (s : Verification) (a : Step) : Prop where
  /-- The active key changes only to the pending one, which a lookup made since that very pair
  became pending has found at its selector. -/
  switch : (step generateKeyPair decrypts s a).row.active ≠ s.row.active →
    ∃ i now c resolveTxt records, a = .complete i now ∧ s.completions.get? i = some c ∧
      c.pair = s.pending ∧ c.resolved = some resolveTxt ∧
      resolveTxt (dkimRecordHost c.key.selector s.row.name) = .records records ∧
      dkimRecordsMatchKey (records.map List.flatten) c.key.publicKey = true ∧
      s.row.pending = (some c.key.selector, some c.key.privateKey, some c.key.publicKey) ∧
      (step generateKeyPair decrypts s a).row.active =
        (c.key.selector, some c.key.privateKey, some c.key.publicKey) ∧
      (step generateKeyPair decrypts s a).replaced = some s.row.activeKey
  /-- A call that throws changes nothing. -/
  throws : ∀ e, answer generateKeyPair decrypts s a = .error e →
    (step generateKeyPair decrypts s a).row = s.row

end Unmixed

/-! ## Every run -/

section Runs

variable {generateKeyPair : ℕ → KeyPair} {decrypts : Text → Bool} {s s' : Verification} {a : Step}

/-- What every step keeps: a completion holds the key of the pair it has read. -/
structure KeyInv (generateKeyPair : ℕ → KeyPair) (s : Verification) : Prop
    extends Unmixed generateKeyPair s where
  completions : ∀ i c, s.completions.get? i = some c → ∃ e ∈ s.stored, e.2 = c.pair ∧ c.key =
    ⟨e.1, (generateKeyPair e.2).publicKey, (generateKeyPair e.2).privateKey⟩

/-- A step that leaves the keys. -/
theorem KeyInv.same (h : KeyInv generateKeyPair s) (hrow : s'.row.active = s.row.active)
    (hpending : s'.row.pending = s.row.pending)
    (hcreated : s'.row.dkimPendingCreatedAt = s.row.dkimPendingCreatedAt)
    (hprevious : s'.row.dkimPreviousSelector = s.row.dkimPreviousSelector ∧
      s'.row.dkimPreviousPublicKey = s.row.dkimPreviousPublicKey)
    (hstored : s'.stored = s.stored) (hpair : s'.pending = s.pending)
    (hreplaced : s'.replaced = s.replaced)
    (hcompletions : ∀ i c, s'.completions.get? i = some c → ∃ e ∈ s.stored, e.2 = c.pair ∧
      c.key = ⟨e.1, (generateKeyPair e.2).publicKey, (generateKeyPair e.2).privateKey⟩) :
    KeyInv generateKeyPair s' := by
  have hselector : s'.row.dkimSelector = s.row.dkimSelector := congrArg Prod.fst hrow
  have hpendingSelector : s'.row.dkimPendingSelector = s.row.dkimPendingSelector :=
    congrArg Prod.fst hpending
  refine ⟨⟨?_, ?_, ?_, ?_⟩, ?_⟩
  · rw [hstored, hrow]
    exact h.active
  · rw [hstored, hpending, hpair, hcreated]
    exact h.pending
  · rw [hpendingSelector, hselector, hprevious.1]
    exact h.fresh
  · rw [hprevious.1, hprevious.2, hreplaced]
    exact h.previous
  · rw [hstored]
    exact hcompletions

theorem KeyInv.start (h : KeyInv generateKeyPair s) (now : Time) :
    KeyInv generateKeyPair (step generateKeyPair decrypts s (.start now)) := by
  rcases @start_cases generateKeyPair decrypts s now with ⟨e, -, hstep⟩ | ⟨row, hrow, hstep⟩
  · rw [hstep]
    exact h.same rfl rfl rfl ⟨rfl, rfl⟩ rfl rfl rfl h.completions
  · obtain ⟨-, hrow⟩ := startDkimRotation_ok hrow
    rw [hstep]
    have hmem : ∀ e ∈ s.stored, e ∈ s.stored ++ row.dkimPendingSelector.toList.map (·, s.generated) :=
      fun e he => List.mem_append_left _ he
    refine ⟨⟨?_, .inr ⟨?_, ?_⟩, ?_, ?_⟩, fun i c hc => ?_⟩
    · obtain ⟨e, he, hactive⟩ := h.active
      refine ⟨e, hmem e he, ?_⟩
      rw [hrow]
      exact hactive
    · rw [hrow]
      simp
    · refine ⟨(datedDkimSelector now [some s.row.dkimSelector, s.row.dkimPreviousSelector],
        s.generated), List.mem_append_right _ ?_, rfl, ?_⟩
      · rw [hrow]
        simp
      · rw [hrow]
        rfl
    · rw [hrow]
      rintro selector ⟨⟩
      have hfresh := datedDkimSelector_notMem now [some s.row.dkimSelector, s.row.dkimPreviousSelector]
      simp only [List.mem_cons, List.not_mem_nil, or_false, not_or, Option.some.injEq] at hfresh
      exact hfresh
    · rw [hrow]
      exact h.previous
    · obtain ⟨e, he, hpair, hkey⟩ := h.completions i c hc
      exact ⟨e, hmem e he, hpair, hkey⟩

theorem KeyInv.read (h : KeyInv generateKeyPair s) (i : ℕ) :
    KeyInv generateKeyPair (step generateKeyPair decrypts s (.read i)) := by
  rcases @read_cases generateKeyPair decrypts s i with hstep | ⟨key, hread, hstep⟩
  · rw [hstep]
    exact h
  · rw [hstep]
    refine h.same rfl rfl rfl ⟨rfl, rfl⟩ rfl rfl rfl fun j c hc => ?_
    rw [Table.get?_put] at hc
    split_ifs at hc
    · cases hc
      obtain ⟨hselector, hpublic, hprivate⟩ := pendingKey_eq_some (readPending_ok hread)
      rcases h.pending with ⟨hnull, -⟩ | ⟨-, e, he, hpair, hpending⟩
      · rw [DomainRow.pending, hselector] at hnull
        cases hnull
      · refine ⟨e, he, hpair, ?_⟩
        rw [DomainRow.pending, hselector, hprivate, hpublic] at hpending
        simp only [Prod.mk.injEq, Option.some.injEq] at hpending
        obtain ⟨h₁, h₂, h₃⟩ := hpending
        show key = _
        rw [← h₁, ← h₂, ← h₃]
    · exact h.completions j c hc

theorem KeyInv.lookUp (h : KeyInv generateKeyPair s) (i : ℕ) (resolveTxt : Text → TxtAnswer) :
    KeyInv generateKeyPair (step generateKeyPair decrypts s (.lookUp i resolveTxt)) := by
  rcases @lookUp_cases generateKeyPair decrypts s i resolveTxt with hstep | ⟨c, hc, hstep⟩
  · rw [hstep]
    exact h
  · rw [hstep]
    refine h.same rfl rfl rfl ⟨rfl, rfl⟩ rfl rfl rfl fun j c' hc' => ?_
    rw [Table.get?_put] at hc'
    split_ifs at hc'
    · cases hc'
      exact h.completions i c hc
    · exact h.completions j c' hc'

/-- **The re-check.** The key that is still pending when the transaction has locked the row is the
one that was looked up, with its private key. -/
theorem KeyInv.pending_eq (h : KeyInv generateKeyPair s)
    (hgenerate : ∀ m n, (generateKeyPair m).publicKey = (generateKeyPair n).publicKey → m = n)
    {i : ℕ} {c : Completion} (hc : s.completions.get? i = some c)
    (hselector : s.row.dkimPendingSelector = some c.key.selector)
    (hpublic : s.row.dkimPendingPublicKey = some c.key.publicKey) :
    c.pair = s.pending ∧
      s.row.pending = (some c.key.selector, some c.key.privateKey, some c.key.publicKey) := by
  obtain ⟨e, he, hpair, hkey⟩ := h.completions i c hc
  rcases h.pending with ⟨hnull, -⟩ | ⟨-, e', he', hpair', hpending⟩
  · rw [DomainRow.pending, hselector] at hnull
    cases hnull
  · have hpub : s.row.dkimPendingPublicKey = some (generateKeyPair e'.2).publicKey :=
      congrArg (fun t => t.2.2) hpending
    have heq : e.2 = e'.2 := by
      refine hgenerate _ _ ?_
      rw [hpublic, hkey] at hpub
      exact Option.some.inj hpub
    refine ⟨hpair.symm.trans (heq.trans hpair'), ?_⟩
    have hprivate : s.row.dkimPendingPrivateKey = some (generateKeyPair e'.2).privateKey :=
      congrArg (fun t => t.2.1) hpending
    rw [DomainRow.pending, hselector, hpublic, hprivate, ← heq, hkey]

theorem KeyInv.complete (h : KeyInv generateKeyPair s) (i : ℕ) (now : Time) :
    KeyInv generateKeyPair (step generateKeyPair decrypts s (.complete i now)) := by
  rcases @complete_cases generateKeyPair decrypts s i now with
    ⟨completions, hsub, hstep⟩ | ⟨c, resolveTxt, row, hc, -, -, hrow, hstep⟩
  · rw [hstep]
    exact h.same rfl rfl rfl ⟨rfl, rfl⟩ rfl rfl rfl fun j c hj => h.completions j c (hsub j c hj)
  · obtain ⟨hselector, hpublic, hrow⟩ := completeDkimRotation_ok hrow
    obtain ⟨e, he, -, hkey⟩ := h.completions i c hc
    rw [hstep]
    refine ⟨⟨⟨e, he, ?_⟩, .inl ⟨?_, ?_⟩, ?_, ?_⟩, fun j c' hc' => ?_⟩
    · rw [hrow, DomainRow.active, hkey]
    · rw [hrow]
      rfl
    · rw [hrow]
    · rw [hrow]
      rintro selector ⟨⟩
    · rw [hrow]
      exact ⟨rfl, rfl⟩
    · rw [Table.get?_deleteWhere] at hc'
      exact h.completions j c' (Option.filter_eq_some_iff.mp hc').1

theorem KeyInv.cancel (h : KeyInv generateKeyPair s) :
    KeyInv generateKeyPair (step generateKeyPair decrypts s .cancel) := by
  rcases @cancel_cases generateKeyPair decrypts s with hstep | ⟨row, hrow, hstep⟩
  · rw [hstep]
    exact h
  · have hrow := cancelDkimRotation_ok hrow
    rw [hstep]
    refine ⟨⟨?_, .inl ⟨?_, ?_⟩, ?_, ?_⟩, h.completions⟩
    · rw [hrow]
      exact h.active
    · rw [hrow]
      rfl
    · rw [hrow]
    · rw [hrow]
      rintro selector ⟨⟩
    · rw [hrow]
      exact h.previous

/-- **One step.** -/
theorem KeyInv.step (h : KeyInv generateKeyPair s) (a : Step) :
    KeyInv generateKeyPair (step generateKeyPair decrypts s a) := by
  cases a with
  | readCheck i =>
    show KeyInv generateKeyPair (if _ then _ else _)
    split_ifs
    · exact h
    · exact h.same rfl rfl rfl ⟨rfl, rfl⟩ rfl rfl rfl h.completions
  | applyCheck i result now intervalMs jitter =>
    show KeyInv generateKeyPair (if _ then _ else _)
    split_ifs
    · exact h.same rfl rfl rfl ⟨rfl, rfl⟩ rfl rfl rfl h.completions
    · exact h
  | start now => exact h.start now
  | read i => exact h.read i
  | lookUp i resolveTxt => exact h.lookUp i resolveTxt
  | complete i now => exact h.complete i now
  | cancel => exact h.cancel

/-- Only completing a rotation changes the active key. -/
theorem active_step (hcomplete : ∀ i now, a ≠ .complete i now) :
    (step generateKeyPair decrypts s a).row.active = s.row.active := by
  cases a with
  | readCheck i =>
    show (if _ then _ else _ : Verification).row.active = _
    split_ifs <;> rfl
  | applyCheck i result now intervalMs jitter =>
    show (if _ then _ else _ : Verification).row.active = _
    split_ifs <;> rfl
  | start now =>
    rcases @start_cases generateKeyPair decrypts s now with ⟨e, -, hstep⟩ | ⟨row, hrow, hstep⟩
    · rw [hstep]
    · rw [hstep, (startDkimRotation_ok hrow).2]
      rfl
  | read i =>
    rcases @read_cases generateKeyPair decrypts s i with hstep | ⟨key, -, hstep⟩ <;> rw [hstep]
  | lookUp i resolveTxt =>
    rcases @lookUp_cases generateKeyPair decrypts s i resolveTxt with hstep | ⟨c, -, hstep⟩ <;>
      rw [hstep]
  | complete i now => exact absurd rfl (hcomplete i now)
  | cancel =>
    rcases @cancel_cases generateKeyPair decrypts s with hstep | ⟨row, hrow, hstep⟩
    · rw [hstep]
    · rw [hstep, cancelDkimRotation_ok hrow]
      rfl

theorem row_of_throws {e : DkimRotationError} (he : answer generateKeyPair decrypts s a = .error e) :
    (step generateKeyPair decrypts s a).row = s.row := by
  cases a with
  | readCheck i => cases he
  | applyCheck i result now intervalMs jitter => cases he
  | start now =>
    rcases @start_cases generateKeyPair decrypts s now with ⟨e, -, hstep⟩ | ⟨row, hrow, -⟩
    · rw [hstep]
    · rw [answer, hrow] at he
      cases he
  | read i =>
    rcases @read_cases generateKeyPair decrypts s i with hstep | ⟨key, hread, -⟩
    · rw [hstep]
    · rw [answer, hread] at he
      cases he
  | lookUp i resolveTxt => cases he
  | complete i now =>
    rcases @complete_cases generateKeyPair decrypts s i now with
      ⟨completions, -, hstep⟩ | ⟨c, resolveTxt, row, hc, hr, hok, hrow, -⟩
    · rw [hstep]
    · simp only [answer, hc, hr, hok, hrow, Option.bind_some, Option.map_some, if_true,
        Option.getD_some] at he
      cases he
  | cancel =>
    rcases @cancel_cases generateKeyPair decrypts s with hstep | ⟨row, hrow, -⟩
    · rw [hstep]
    · rw [answer, hrow] at he
      cases he

theorem KeyInv.switches (h : KeyInv generateKeyPair s)
    (hgenerate : ∀ m n, (generateKeyPair m).publicKey = (generateKeyPair n).publicKey → m = n)
    (a : Step) : Switches generateKeyPair decrypts s a := by
  refine ⟨fun hactive => ?_, fun e he => row_of_throws he⟩
  by_cases hcomplete : ∃ i now, a = .complete i now
  · obtain ⟨i, now, rfl⟩ := hcomplete
    rcases @complete_cases generateKeyPair decrypts s i now with
      ⟨completions, -, hstep⟩ | ⟨c, resolveTxt, row, hc, hr, hok, hrow, hstep⟩
    · rw [hstep] at hactive
      exact absurd rfl hactive
    · obtain ⟨hselector, hpublic, hrow⟩ := completeDkimRotation_ok hrow
      obtain ⟨records, hrecords, hmatch⟩ := checkDkimKeyPublished_ok hok
      obtain ⟨hpair, hpending⟩ := h.pending_eq hgenerate hc hselector hpublic
      refine ⟨i, now, c, resolveTxt, records, rfl, hc, hpair, hr, hrecords, hmatch, hpending, ?_, ?_⟩
      · rw [hstep, hrow]
        rfl
      · rw [hstep]
  · refine absurd (active_step fun i now heq => hcomplete ⟨i, now, heq⟩) hactive

theorem keyInv_created (name selector : Text) :
    KeyInv generateKeyPair (created generateKeyPair name selector) := by
  refine ⟨⟨⟨(selector, 0), List.mem_singleton_self _, rfl⟩, .inl ⟨rfl, rfl⟩, ?_, rfl, rfl⟩, ?_⟩
  · rintro _ ⟨⟩
  · rintro i c ⟨⟩

/-- **A rotation never mixes keys.** As long as two generated pairs never share a public key, in every
run from the creation of a domain the active and the pending columns are each of one pair, the
pending selector is a fresh one, and the active key changes only to the pending pair that was found
published since it became pending; a call that throws changes nothing. -/
theorem unmixed (generateKeyPair : ℕ → KeyPair) (decrypts : Text → Bool)
    (hgenerate : ∀ m n, (generateKeyPair m).publicKey = (generateKeyPair n).publicKey → m = n)
    (name selector : Text) (steps : List Step) :
    Unmixed generateKeyPair
        (run (step generateKeyPair decrypts) (created generateKeyPair name selector) steps) ∧
      Along (step generateKeyPair decrypts) (Switches generateKeyPair decrypts)
        (created generateKeyPair name selector) steps := by
  have hinv := @keyInv_created generateKeyPair name selector
  have hall : Along (step generateKeyPair decrypts) (fun _ _ => True)
      (created generateKeyPair name selector) steps :=
    along_iff_forall_concat.mpr fun _ _ _ => trivial
  exact ⟨(Run.invariant (KeyInv generateKeyPair) (fun s a hs _ => hs.step a) hinv hall).toUnmixed,
    Along.of_invariant (KeyInv generateKeyPair) (fun s a hs _ => hs.step a)
      (fun s a hs _ => hs.switches hgenerate a) hinv hall⟩

/-- A rotation cancelled and started again on the same day, completed for the second pair. -/
theorem unmixed_restarted :
    let pairs : ℕ → KeyPair := fun n => ⟨Text.decimal n, Text.decimal n⟩
    let published : Text → TxtAnswer := fun _ => .records [["v=DKIM1; k=rsa; p=2"]]
    let steps : List Step := [.start 0, .read 0, .cancel, .start 0, .lookUp 0 published, .complete 0 0,
      .read 1, .lookUp 1 published, .complete 1 0]
    Unmixed pairs (run (step pairs fun _ => true) (created pairs [] ['s']) steps) ∧
      (run (step pairs fun _ => true) (created pairs [] ['s']) steps).row.dkimPublicKey = some ['2'] ∧
      (run (step pairs fun _ => true) (created pairs [] ['s']) steps).rotations = 1 := by
  intro pairs published steps
  have hpairs : ∀ m n, (pairs m).publicKey = (pairs n).publicKey → m = n :=
    fun m n h => Text.decimal_injective h
  exact ⟨(unmixed pairs (fun _ => true) hpairs [] ['s'] steps).1, by decide +kernel,
    by decide +kernel⟩

end Runs

end BunMail.Domains
