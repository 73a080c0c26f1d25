import BunMail.Emails.QueueClaim
import BunMail.Lib.Run

/-!
# Fencing

One row and any number of workers.  A claim is fenced by the worker's id and by the row's
`attempts` at claim time.  Claims count the attempts up, but a rate-budget deferral sets the
counter back, so the next claim of the same worker carries the number of the deferred one.  The
fence holds exactly in the runs where no claim whose own deferral was saved acts again while the
row is held under its number.
-/

namespace BunMail.Emails.Fencing

open Run

/-- A claim some worker made, and what became of it. -/
structure ClaimRecord where
  worker : Text
  claim : Claim
  /-- How often its outcome was saved. -/
  saved : ℕ
  /-- A saved outcome was a deferral. -/
  deferred : Bool
  deriving DecidableEq

/-- The database clock, the row, and the claims made on it, in order. -/
structure State where
  now : Time
  row : EmailRow
  claims : List ClaimRecord
  deriving DecidableEq

/-- A step of a worker or of the clock.  Claims are named by their position. -/
inductive Action
  | claimNextEmails (worker : Text) (appNow : Time)
  | renewLease (i : ℕ)
  | releaseOwnLeases (worker : Text)
  | releaseRow (i : ℕ) (values : RowValues) (appNow : Time)
  | tick (ms : ℕ)
  deriving DecidableEq

/-- The record after its outcome was saved. -/
def ClaimRecord.save (values : RowValues) (c : ClaimRecord) : ClaimRecord :=
  { c with saved := c.saved + 1, deferred := c.deferred || values.attempts.isSome }

/-- The record `c` holds the row. -/
def ClaimRecord.holds (c : ClaimRecord) (row : EmailRow) : Bool := heldBy c.worker c.claim row

/-- A claim releases the row only with an outcome the code writes. -/
def step (s : State) : Action → State
  | .claimNextEmails worker appNow =>
    match Emails.claimNextEmails worker s.now appNow s.row with
    | none => s
    | some email =>
      { s with
        row := email.toEmailRow
        claims := s.claims ++ [⟨worker, ⟨email.id, email.attempts⟩, 0, false⟩] }
  | .renewLease i =>
    match s.claims[i]? with
    | none => s
    | some c => { s with row := (Emails.renewLease c.worker c.claim s.now s.row).1 }
  | .releaseOwnLeases worker => { s with row := Emails.releaseOwnLeases worker s.now s.row }
  | .releaseRow i values appNow =>
    match s.claims[i]? with
    | none => s
    | some c =>
      if values.writable c.claim then
        let (row, saved) := Emails.releaseRow c.worker c.claim values s.now appNow s.row
        { s with row, claims := if saved then s.claims.modify i (·.save values) else s.claims }
      else s
  | .tick ms => { s with now := s.now + ms }

/-- What the statement of a step returns to its claim. -/
def result (s : State) : Action → Bool
  | .renewLease i =>
    s.claims[i]?.any fun c => (Emails.renewLease c.worker c.claim s.now s.row).2
  | .releaseRow i values appNow =>
    s.claims[i]?.any fun c => values.writable c.claim &&
      (Emails.releaseRow c.worker c.claim values s.now appNow s.row).2
  | _ => false

/-- The claim a step acts for: it renews its lease, or releases the row with an outcome the code
writes. -/
def Action.actsFor (s : State) : Action → Option (ℕ × ClaimRecord)
  | .renewLease i => s.claims[i]?.map (i, ·)
  | .releaseRow i values _ => (s.claims[i]?.filter fun c => values.writable c.claim).map (i, ·)
  | _ => none

/-- A later claim was made. -/
def State.superseded (s : State) (i : ℕ) : Prop := i + 1 < s.claims.length

/-- The three promises of the fence, over a run. -/
structure Fenced (s : State) (as : List Action) : Prop where
  /-- At most one claim that is not yet released holds the row. -/
  one_holder : ∀ bs, bs <+: as → ∀ (i j : ℕ) (c d : ClaimRecord),
    (run step s bs).claims[i]? = some c → (run step s bs).claims[j]? = some d →
      c.saved = 0 → d.saved = 0 → c.holds (run step s bs).row = true →
        d.holds (run step s bs).row = true → i = j
  /-- A superseded claim never again renews its lease or releases the row. -/
  superseded : ∀ bs a, bs ++ [a] <+: as → ∀ p ∈ a.actsFor (run step s bs),
    (run step s bs).superseded p.1 → result (run step s bs) a = false
  /-- An outcome is saved at most once. -/
  saved_once : ∀ bs, bs <+: as → ∀ c ∈ (run step s bs).claims, c.saved ≤ 1

/-- The condition on a step: the claim it acts for has no saved deferral, or the row is not held
under its worker and attempt number. -/
def NoRepeat (s : State) (a : Action) : Prop :=
  ∀ p ∈ a.actsFor s, p.2.deferred = true → p.2.holds s.row = false

instance (s : State) (a : Action) : Decidable (NoRepeat s a) :=
  inferInstanceAs (Decidable (∀ p ∈ a.actsFor s, p.2.deferred = true → p.2.holds s.row = false))

/-! ## The invariant -/

/-- A sending row is held by the last claim, which is not released; every other claim without a
deferral has a number the counter has left behind. -/
structure Inv (s : State) : Prop where
  current : s.row.status = .sending → ∃ c, s.claims.getLast? = some c ∧ c.saved = 0 ∧
    c.holds s.row = true
  attempt_le : ∀ (i : ℕ) (c : ClaimRecord), s.claims[i]? = some c → c.deferred = false →
    c.claim.attempt ≤ s.row.attempts
  attempt_lt : ∀ (i : ℕ) (c : ClaimRecord), s.claims[i]? = some c → c.deferred = false →
    s.superseded i → s.row.status = .sending → c.claim.attempt < s.row.attempts
  saved_le : ∀ (i : ℕ) (c : ClaimRecord), s.claims[i]? = some c → c.saved ≤ 1
  saved_of_deferred : ∀ (i : ℕ) (c : ClaimRecord), s.claims[i]? = some c → c.deferred = true →
    c.saved = 1

section Invariant

variable {s : State} {a : Action} {i : ℕ} {c : ClaimRecord}

variable (s) in
theorem inv_init (hs : s.row.status ≠ .sending) (hc : s.claims = []) : Inv s := by
  constructor
  · intro h
    exact absurd h hs
  all_goals
    intro i c hi
    rw [hc, List.getElem?_nil] at hi
    cases hi

/-- A step acts for a claim on file, and returns whether that claim holds the row. -/
theorem actsFor_spec {p : ℕ × ClaimRecord} (hp : a.actsFor s = some p) :
    s.claims[p.1]? = some p.2 ∧ result s a = p.2.holds s.row := by
  cases a with
  | renewLease i =>
    obtain ⟨c, hc, rfl⟩ := Option.map_eq_some_iff.mp hp
    refine ⟨hc, ?_⟩
    rw [result, hc, Option.any_some, renewLease_snd]
    rfl
  | releaseRow i values appNow =>
    obtain ⟨c, hc, rfl⟩ := Option.map_eq_some_iff.mp hp
    rw [Option.filter_eq_some_iff] at hc
    refine ⟨hc.1, ?_⟩
    rw [result, hc.1, Option.any_some, releaseRow_snd, hc.2, Bool.true_and]
    rfl
  | claimNextEmails | releaseOwnLeases | tick => cases hp

/-- Under the invariant only the last claim, not yet released, holds the row, unless its number
was handed out again after its deferral. -/
theorem last_of_holds (h : Inv s) (hi : s.claims[i]? = some c) (hd : c.deferred = false)
    (hh : c.holds s.row = true) : ¬ s.superseded i := by
  intro hsup
  obtain ⟨_, _, hatt, hst⟩ := heldBy_iff.mp hh
  have := h.attempt_lt i c hi hd hsup hst
  omega

theorem saved_of_holds (h : Inv s) (hi : s.claims[i]? = some c) (hd : c.deferred = false)
    (hh : c.holds s.row = true) : c.saved = 0 := by
  have hlast := last_of_holds h hi hd hh
  obtain ⟨l, hl, hl0, _⟩ := h.current (heldBy_iff.mp hh).2.2.2
  have hlt := (List.getElem?_eq_some_iff.mp hi).1
  have hidx : i = s.claims.length - 1 := by
    unfold State.superseded at hlast
    omega
  rw [List.getLast?_eq_getElem?, ← hidx, hi] at hl
  rw [Option.some.inj hl]
  exact hl0

/-- A step that changes only the clock or the lease columns of the row. -/
theorem inv_of_lease {s' : State} (h : Inv s) (hc : s'.claims = s.claims)
    (hid : s'.row.id = s.row.id) (hst : s'.row.status = s.row.status)
    (ha : s'.row.attempts = s.row.attempts) (hl : s'.row.lockedBy = s.row.lockedBy) : Inv s' := by
  have hholds : ∀ c : ClaimRecord, c.holds s'.row = c.holds s.row := by
    intro c
    unfold ClaimRecord.holds heldBy
    rw [hid, hst, ha, hl]
  constructor
  · intro hs
    obtain ⟨c, hlast, h0, hh⟩ := h.current (hst ▸ hs)
    exact ⟨c, hc ▸ hlast, h0, (hholds c).trans hh⟩
  · rw [hc, ha]
    exact h.attempt_le
  · unfold State.superseded
    rw [hc, ha, hst]
    exact h.attempt_lt
  · rw [hc]
    exact h.saved_le
  · rw [hc]
    exact h.saved_of_deferred

theorem inv_claim (h : Inv s) (worker : Text) (appNow : Time) :
    Inv (step s (.claimNextEmails worker appNow)) := by
  rw [step, Emails.claimNextEmails]
  by_cases hc : claimable s.now s.row = true
  · rw [if_pos hc]
    -- the old claims keep their place; the new one has the highest number
    have hold : ∀ i c, (s.claims ++ [(⟨worker, ⟨s.row.id, s.row.attempts + 1⟩, 0, false⟩ :
        ClaimRecord)])[i]? = some c → s.claims[i]? = some c ∨
          i = s.claims.length ∧ c = ⟨worker, ⟨s.row.id, s.row.attempts + 1⟩, 0, false⟩ := by
      intro i c hi
      rcases lt_trichotomy i s.claims.length with hlt | heq | hgt
      · rw [List.getElem?_append_left hlt] at hi
        exact .inl hi
      · subst heq
        rw [List.getElem?_append_right le_rfl, Nat.sub_self] at hi
        exact .inr ⟨rfl, (Option.some.inj hi).symm⟩
      · rw [List.getElem?_eq_none (by rw [List.length_append, List.length_singleton]; omega)] at hi
        cases hi
    constructor
    · intro _
      refine ⟨_, List.getLast?_concat, rfl, ?_⟩
      exact heldBy_iff.mpr ⟨rfl, rfl, rfl, rfl⟩
    · intro i c hi hd
      rcases hold i c hi with hi | ⟨_, rfl⟩
      · exact (h.attempt_le i c hi hd).trans (Nat.le_succ _)
      · exact le_rfl
    · intro i c hi hd hsup _
      rcases hold i c hi with hi | ⟨rfl, _⟩
      · exact Nat.lt_succ_of_le (h.attempt_le i c hi hd)
      · unfold State.superseded at hsup
        rw [List.length_append, List.length_singleton] at hsup
        omega
    · intro i c hi
      rcases hold i c hi with hi | ⟨_, rfl⟩
      · exact h.saved_le i c hi
      · exact Nat.zero_le _
    · intro i c hi hd
      rcases hold i c hi with hi | ⟨_, rfl⟩
      · exact h.saved_of_deferred i c hi hd
      · cases hd
  · rw [if_neg hc]
    exact h

theorem inv_renewLease (h : Inv s) (i : ℕ) : Inv (step s (.renewLease i)) := by
  rw [step]
  cases hi : s.claims[i]? with
  | none => exact h
  | some c =>
    dsimp only
    unfold Emails.renewLease
    split_ifs
    · exact inv_of_lease h rfl rfl rfl rfl rfl
    · exact h

theorem inv_releaseOwnLeases (h : Inv s) (worker : Text) :
    Inv (step s (.releaseOwnLeases worker)) := by
  rw [step, Emails.releaseOwnLeases]
  split_ifs
  · exact inv_of_lease h rfl rfl rfl rfl rfl
  · exact h

theorem getElem?_save {claims : List ClaimRecord} {values : RowValues} {j : ℕ} {d : ClaimRecord}
    (hi : claims[i]? = some c) (hj : (claims.modify i (·.save values))[j]? = some d) :
    (j = i ∧ d = c.save values) ∨ (j ≠ i ∧ claims[j]? = some d) := by
  rw [List.getElem?_modify] at hj
  by_cases hji : i = j
  · subst hji
    rw [hi] at hj
    simp only [if_true, Option.map_eq_map, Option.map_some, Option.some.injEq] at hj
    exact .inl ⟨rfl, hj.symm⟩
  · simp only [hji, if_false, Option.map_eq_map, Option.map_id_fun', id_eq] at hj
    exact .inr ⟨fun e => hji e.symm, hj⟩

/-- A deferral sets the counter back by one. -/
theorem attempts_of_writable {values : RowValues} {claim : Claim} {n : ℕ}
    (hw : values.writable claim = true) (hn : values.attempts = some n) : n = claim.attempt - 1 := by
  simp only [RowValues.writable, hn, Bool.or_eq_true, Bool.and_eq_true, decide_eq_true_eq,
    reduceCtorEq, and_false, false_or, Option.some.injEq] at hw
  exact hw.2

/-- Saving an outcome: the claim was the last one and not released, so its number stays behind
the counter, or is marked deferred when the counter goes back. -/
theorem inv_saved (h : Inv s) {values : RowValues} (appNow : Time) (hi : s.claims[i]? = some c)
    (hd : c.deferred = false) (hh : c.holds s.row = true) (hw : values.writable c.claim = true) :
    Inv { s with
      row := { values.apply s.now s.row with
        lockedBy := none, leaseUntil := none, updatedAt := appNow }
      claims := s.claims.modify i (·.save values) } := by
  have hlast := last_of_holds h hi hd hh
  have h0 := saved_of_holds h hi hd hh
  have hlen := (List.getElem?_eq_some_iff.mp hi).1
  obtain ⟨_, _, hatt, hsend⟩ := heldBy_iff.mp hh
  have hnot : values.status ≠ .sending := status_ne_sending_of_writable hw
  constructor
  · intro hs
    exact absurd hs hnot
  · intro j d hj hdd
    change d.claim.attempt ≤ values.attempts.getD s.row.attempts
    rcases getElem?_save hi hj with ⟨_, rfl⟩ | ⟨hji, hj⟩
    · cases hva : values.attempts with
      | none => exact hatt.ge
      | some n => simp [ClaimRecord.save, hva] at hdd
    · -- the other claims were superseded, so even the lowered counter has not passed them
      have hlt : j + 1 < s.claims.length := by
        have := (List.getElem?_eq_some_iff.mp hj).1
        unfold State.superseded at hlast
        omega
      have := h.attempt_lt j d hj hdd hlt hsend
      cases hva : values.attempts with
      | none => exact this.le
      | some n =>
        have := attempts_of_writable hw hva
        rw [Option.getD_some]
        omega
  · intro j d hj hdd hsup hs
    exact absurd hs hnot
  · intro j d hj
    rcases getElem?_save hi hj with ⟨_, rfl⟩ | ⟨_, hj⟩
    · change c.saved + 1 ≤ 1
      omega
    · exact h.saved_le j d hj
  · intro j d hj hdd
    rcases getElem?_save hi hj with ⟨_, rfl⟩ | ⟨_, hj⟩
    · change c.saved + 1 = 1
      omega
    · exact h.saved_of_deferred j d hj hdd

theorem inv_releaseRow (h : Inv s) (i : ℕ) (values : RowValues) (appNow : Time)
    (hn : NoRepeat s (.releaseRow i values appNow)) : Inv (step s (.releaseRow i values appNow)) := by
  rw [step]
  cases hi : s.claims[i]? with
  | none => exact h
  | some c =>
    dsimp only
    split_ifs with hw hsaved
    · rw [releaseRow_snd] at hsaved
      have hd : c.deferred = false := by
        by_contra hd
        rw [Bool.not_eq_false] at hd
        have := hn (i, c) (by simp [Action.actsFor, hi, hw]) hd
        rw [ClaimRecord.holds, hsaved] at this
        cases this
      unfold Emails.releaseRow
      rw [if_pos hsaved]
      exact inv_saved h appNow hi hd hsaved hw
    · rw [releaseRow_snd, Bool.not_eq_true] at hsaved
      rw [releaseRow_of_not_heldBy hsaved]
      exact h
    · exact h

/-- **Step.** -/
theorem inv_step (h : Inv s) (hn : NoRepeat s a) : Inv (step s a) := by
  cases a with
  | claimNextEmails worker appNow => exact inv_claim h worker appNow
  | renewLease i => exact inv_renewLease h i
  | releaseOwnLeases worker => exact inv_releaseOwnLeases h worker
  | releaseRow i values appNow => exact inv_releaseRow h i values appNow hn
  | tick ms => exact inv_of_lease h rfl rfl rfl rfl rfl

/-! ## Runs -/

theorem one_holder_of_inv (h : Inv s) {j : ℕ} {d : ClaimRecord} (hi : s.claims[i]? = some c)
    (hj : s.claims[j]? = some d) (hc : c.saved = 0) (hd : d.saved = 0)
    (hch : c.holds s.row = true) (hdh : d.holds s.row = true) : i = j := by
  have hlast : ∀ {k e}, s.claims[k]? = some e → e.saved = 0 → e.holds s.row = true →
      ¬ s.superseded k := by
    intro k e hk he hh
    refine last_of_holds h hk ?_ hh
    by_contra hdef
    rw [Bool.not_eq_false] at hdef
    have := h.saved_of_deferred k e hk hdef
    omega
  have h₁ := hlast hi hc hch
  have h₂ := hlast hj hd hdh
  have h₃ := (List.getElem?_eq_some_iff.mp hi).1
  have h₄ := (List.getElem?_eq_some_iff.mp hj).1
  unfold State.superseded at h₁ h₂
  omega

/-- A deferred claim that matches the row again was superseded by the claim that holds it. -/
theorem superseded_of_deferred (h : Inv s) (hi : s.claims[i]? = some c) (hd : c.deferred = true)
    (hh : c.holds s.row = true) : s.superseded i := by
  by_contra hsup
  obtain ⟨l, hl, hl0, _⟩ := h.current (heldBy_iff.mp hh).2.2.2
  have hlt := (List.getElem?_eq_some_iff.mp hi).1
  have hidx : i = s.claims.length - 1 := by
    unfold State.superseded at hsup
    omega
  rw [List.getLast?_eq_getElem?, ← hidx, hi] at hl
  have := h.saved_of_deferred i c hi hd
  rw [Option.some.inj hl] at this
  omega

/-- **Fencing.** From a row that is not being sent, the fence holds over a run exactly when no
claim with a saved deferral acts while the row is held under its worker and number. -/
theorem fenced_iff (s : State) (as : List Action) (hs : s.row.status ≠ .sending)
    (hc : s.claims = []) : Fenced s as ↔ Along step NoRepeat s as := by
  have hinv : ∀ bs, Along step NoRepeat s bs → Inv (run step s bs) := fun bs hbs =>
    invariant Inv (fun t a ht hn => inv_step ht hn) (inv_init s hs hc) hbs
  constructor
  · intro hf
    -- the run meets the condition up to each step, and a step that breaks it breaks the fence
    suffices ∀ bs, bs <+: as → Along step NoRepeat s bs from this as (List.prefix_refl _)
    intro bs
    induction bs using List.reverseRecOn with
    | nil => intro _; trivial
    | append_singleton bs a ih =>
      intro hp
      have hbs := ih ((List.prefix_append _ _).trans hp)
      refine along_append.mpr ⟨hbs, ⟨?_, trivial⟩⟩
      intro q hq hd
      obtain ⟨hc, hres⟩ := actsFor_spec hq
      by_contra hh
      rw [Bool.not_eq_false] at hh
      have hsup := superseded_of_deferred (hinv bs hbs) hc hd hh
      have := hf.superseded bs a hp q hq hsup
      rw [hres, hh] at this
      cases this
  · intro hal
    have hpre : ∀ bs, bs <+: as → Inv (run step s bs) := by
      rintro bs ⟨cs, rfl⟩
      exact hinv bs (along_append.mp hal).1
    refine ⟨?_, ?_, ?_⟩
    · intro bs hp i j c d hi hj hc0 hd0 hch hdh
      exact one_holder_of_inv (hpre bs hp) hi hj hc0 hd0 hch hdh
    · intro bs a hp q hq hsup
      obtain ⟨hc, hres⟩ := actsFor_spec hq
      rw [hres]
      by_contra hh
      rw [Bool.not_eq_false] at hh
      have hd : q.2.deferred = false := by
        by_contra hd
        rw [Bool.not_eq_false] at hd
        rw [along_iff_forall_concat.mp hal bs a hp q hq hd] at hh
        cases hh
      exact last_of_holds (hpre bs ((List.prefix_append _ _).trans hp)) hc hd hh hsup
    · intro bs hp c hmem
      obtain ⟨i, hi⟩ := List.mem_iff_getElem?.mp hmem
      exact (hpre bs hp).saved_le i c hi

end Invariant

/-! ## A number handed out twice -/

/-- A new email, due at once. -/
def newEmail : EmailRow where
  id := "msg_1"
  apiKeyId := "key"
  fromAddress := "a@from.org"
  toAddress := "b@to.org"
  cc := none
  bcc := none
  subject := "Hello"
  tags := none
  status := .queued
  attempts := 0
  lastError := none
  messageId := none
  deliveryState := none
  sentAt := none
  nextAttemptAt := 0
  lockedBy := none
  leaseUntil := none
  createdAt := 0
  updatedAt := 0
  deletedAt := none

/-- The deferral of the first attempt, for one millisecond. -/
def deferral : RowValues := { status := .queued, attempts := some 0, nextAttemptInMs := some 1 }

/-- The commit of a deferral is not acknowledged, the same worker claims the row again, and the
outcome transaction of the first claim runs a second time; then the row is claimed once more. -/
def deferralRetried : List Action :=
  [.claimNextEmails "w" 0, .releaseRow 0 deferral 0, .tick 1, .claimNextEmails "w" 1,
    .releaseRow 0 deferral 1, .tick 1, .claimNextEmails "w" 2]

/-- The superseded first claim saves a second outcome, and then two claims that are not released
hold the row. -/
theorem not_fenced_deferralRetried :
    ¬ Fenced ⟨0, newEmail, []⟩ deferralRetried ∧
      ((run step ⟨0, newEmail, []⟩ deferralRetried).claims.map (·.saved)) = [2, 0, 0] ∧
      (run step ⟨0, newEmail, []⟩ deferralRetried).claims.map
        (·.holds (run step ⟨0, newEmail, []⟩ deferralRetried).row) = [true, true, true] := by
  refine ⟨?_, by decide, by decide⟩
  intro h
  have hlen : ∀ c ∈ (run step ⟨0, newEmail, []⟩ deferralRetried).claims, c.saved ≤ 1 :=
    h.saved_once _ (List.prefix_refl _)
  revert hlen
  decide

/-- A worker reclaims its own expired row, and only the later claim is heard. -/
theorem fenced_expiredLease :
    Fenced ⟨0, newEmail, []⟩
      [.claimNextEmails "w" 0, .tick (LEASE_MS + 1), .claimNextEmails "w" 0, .renewLease 0,
        .releaseRow 1 { status := .queued, attempts := some 1, nextAttemptInMs := some 1 } 0, .tick 1,
        .claimNextEmails "w" 0, .releaseRow 0 { status := .sent } 0,
        .releaseRow 2 { status := .sent } 0] :=
  (fenced_iff _ _ (by decide) rfl).mpr (by decide)

end BunMail.Emails.Fencing
