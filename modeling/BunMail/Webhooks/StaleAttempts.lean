import BunMail.Webhooks.Delivery

/-!
# Stale attempts

The claim's lock is a time, and `recordAttempt` checks neither the row's status nor its count.  An
outcome that comes in after the row was claimed again sets the count back, and can turn a delivered
row into a failed one; one that comes in after a replay writes into the new cycle.  The row survives
every run in which outcomes and attempts come in time.
-/

namespace BunMail.Webhooks

open Run

/-! ## The property and its condition -/

def Action.isReplay : Action → Bool
  | .replayDelivery .. => true
  | .claimDueDeliveries .. | .performHttpAttempt _ | .recordAttempt .. | .recordThrows _ => false

/-- What one action leaves of the row: delivered is left and the count goes down only by a replay,
no more attempts are started than allowed, and an attempt claimed before a replay changes
nothing. -/
structure Survives (s : State) (a : Action) : Prop where
  delivered : s.row.status = .delivered → (step s a).row.status ≠ .delivered → a.isReplay = true
  attempts : (step s a).row.attempts < s.row.attempts → a.isReplay = true
  started : (step s a).started ≤ MAX_DELIVERY_ATTEMPTS
  stale : ∀ c outcome now, a = .recordAttempt c outcome now → c.replays < s.replays →
    (step s a).row = s.row

/-- An HTTP attempt starts, and an outcome is recorded, before the row is replayed; the outcome also
before a later claim has counted a further attempt. -/
def InTime (s : State) : Action → Prop
  | .performHttpAttempt c => c.replays = s.replays
  | .recordAttempt c _ _ => c.replays = s.replays ∧ s.row.attempts ≤ c.prior + 1
  | .claimDueDeliveries .. | .recordThrows _ | .replayDelivery .. => True

instance (s : State) : (a : Action) → Decidable (InTime s a)
  | .performHttpAttempt c => inferInstanceAs (Decidable (c.replays = s.replays))
  | .recordAttempt c _ _ =>
    inferInstanceAs (Decidable (c.replays = s.replays ∧ s.row.attempts ≤ c.prior + 1))
  | .claimDueDeliveries .. | .recordThrows _ | .replayDelivery .. => isTrue trivial

/-! ## The invariant -/

/-- The claims whose outcome is not recorded. -/
def State.openClaims (s : State) : List Claim := s.waiting ++ s.inFlight

/-- The claims of the current cycle whose attempt has not started. -/
def State.toStart (s : State) : List Claim := s.waiting.filter (·.replays = s.replays)

/-- What a run in time keeps.  The open claims are distinct; those of the current cycle count below
the row, and strictly below a delivered one: none of their outcomes is in time any more. -/
structure Inv (s : State) : Prop where
  bound : s.row.attempts ≤ MAX_DELIVERY_ATTEMPTS
  cap : ∀ c ∈ s.openClaims, c.prior < MAX_DELIVERY_ATTEMPTS
  past : ∀ c ∈ s.openClaims, c.replays ≤ s.replays
  below : ∀ c ∈ s.openClaims, c.replays = s.replays → c.prior < s.row.attempts
  nodup : s.openClaims.Nodup
  count : s.toStart.length + s.started ≤ s.row.attempts
  delivered : s.row.status = .delivered →
    ∀ c ∈ s.openClaims, c.replays = s.replays → c.prior + 1 < s.row.attempts

theorem inv_enqueued (now : Time) : Inv (enqueued now) where
  bound := Nat.zero_le _
  cap c hc := by cases hc
  past c hc := by cases hc
  below c hc := by cases hc
  nodup := List.nodup_nil
  count := Nat.le_refl _
  delivered h := by cases h

section Steps

variable {s : State}

/-- Fewer open claims, the row as it is. -/
theorem Inv.close {waiting inFlight : List Claim} {started : ℕ} (h : Inv s)
    (hp : (waiting ++ inFlight).Sublist s.openClaims ∨ (waiting ++ inFlight).Perm s.openClaims)
    (hc : (waiting.filter (·.replays = s.replays)).length + started ≤ s.row.attempts) :
    Inv { s with waiting := waiting, inFlight := inFlight, started := started } := by
  have hsub : ∀ c ∈ waiting ++ inFlight, c ∈ s.openClaims := by
    rcases hp with hp | hp
    · exact fun c hc => hp.subset hc
    · exact fun c hc => hp.subset hc
  exact
    { bound := h.bound
      cap := fun c hc => h.cap c (hsub c hc)
      past := fun c hc => h.past c (hsub c hc)
      below := fun c hc => h.below c (hsub c hc)
      nodup := hp.elim (fun hp => hp.nodup h.nodup) fun hp => hp.nodup_iff.mpr h.nodup
      count := hc
      delivered := fun hd c hc => h.delivered hd c (hsub c hc) }

theorem inv_claim (h : Inv s) (dbNow now : Time) (deliverable : Bool) :
    Inv (step s (.claimDueDeliveries dbNow now deliverable)) := by
  rw [step]
  rcases claimDueDeliveries_cases dbNow now deliverable s.row h.bound with
    he | ⟨r, he, hpend, hst, hat⟩ | ⟨r, he, hpend, hst, hat, hmax⟩
  · rw [he]
    exact h
  · rw [he]
    exact
      { bound := hat ▸ h.bound
        cap := h.cap
        past := h.past
        below := fun c hc hr => hat ▸ h.below c hc hr
        nodup := h.nodup
        count := hat ▸ h.count
        delivered := fun hd => by rw [hst] at hd; cases hd }
  · rw [he]
    have hnew : (⟨s.row.attempts, s.replays⟩ : Claim) ∉ s.openClaims := fun hm =>
      Nat.lt_irrefl _ (h.below _ hm rfl)
    refine
      { bound := hmax
        cap := fun c hc => ?_
        past := fun c hc => ?_
        below := fun c hc hr => ?_
        nodup := List.nodup_cons.mpr ⟨hnew, h.nodup⟩
        count := ?_
        delivered := fun hd => by rw [hst] at hd; cases hd }
    · rcases List.mem_cons.mp hc with rfl | hc
      · dsimp only; omega
      · exact h.cap c hc
    · rcases List.mem_cons.mp hc with rfl | hc
      · exact Nat.le_refl _
      · exact h.past c hc
    · dsimp only
      rcases List.mem_cons.mp hc with rfl | hc
      · dsimp only; omega
      · have := h.below c hc hr
        omega
    · have := h.count
      simp only [State.toStart, Option.map_some, Option.toList_some, List.cons_append,
        List.nil_append, List.filter_cons, decide_true, if_true, List.length_cons] at this ⊢
      omega

/-- Starting an attempt of the current cycle takes one off the list to start. -/
theorem length_toStart_erase {c : Claim} (hm : c ∈ s.waiting) (hr : c.replays = s.replays) :
    ((s.waiting.erase c).filter (·.replays = s.replays)).length + 1 = s.toStart.length := by
  have hp := (List.perm_cons_erase hm).filter (·.replays = s.replays)
  rw [List.filter_cons, decide_eq_true hr, if_pos rfl] at hp
  exact hp.length_eq.symm

theorem inv_start (h : Inv s) {c : Claim} (hr : c.replays = s.replays) :
    Inv (step s (.performHttpAttempt c)) := by
  rw [step]
  split_ifs with hm
  · refine h.close (.inr ?_) ?_
    · exact List.perm_middle.trans ((List.perm_cons_erase hm).symm.append_right s.inFlight)
    · have hlen := length_toStart_erase hm hr
      have hcount := h.count
      omega
  · exact h

theorem inv_recordThrows (h : Inv s) (c : Claim) : Inv (step s (.recordThrows c)) :=
  h.close (.inl (List.erase_sublist.append_left s.waiting)) h.count

theorem inv_record (h : Inv s) {c : Claim} (outcome : AttemptOutcome) (now : Time)
    (hr : c.replays = s.replays) (ha : s.row.attempts ≤ c.prior + 1) :
    Inv (step s (.recordAttempt c outcome now)) := by
  rw [step]
  split_ifs with hm
  · have hopen : c ∈ s.openClaims := List.mem_append_right _ hm
    have heq : s.row.attempts = c.prior + 1 := Nat.le_antisymm ha (h.below c hopen hr)
    have hsub : (s.waiting ++ s.inFlight.erase c).Sublist s.openClaims :=
      List.erase_sublist.append_left s.waiting
    have hat := recordAttempt_attempts outcome c.prior now s.row
    rw [← heq] at hat
    refine
      { bound := hat ▸ h.bound
        cap := fun d hd => h.cap d (hsub.subset hd)
        past := fun d hd => h.past d (hsub.subset hd)
        below := fun d hd hr => hat ▸ h.below d (hsub.subset hd) hr
        nodup := hsub.nodup h.nodup
        count := hat ▸ h.count
        delivered := fun _ d hd hdr => ?_ }
    -- the open claims of the cycle differ, so every other one counts less
    have hdne : d ≠ c := by
      rintro rfl
      rcases List.mem_append.mp hd with hw | hf
      · exact (List.nodup_append.mp h.nodup).2.2 d hw d hm rfl
      · exact (h.nodup.sublist (List.sublist_append_right _ _)).not_mem_erase hf
    have hlt := h.below d (hsub.subset hd) hdr
    have hprior : d.prior ≠ c.prior := fun hp => hdne (by
      cases d; cases c; simp_all)
    dsimp only
    omega
  · exact h

theorem inv_replay (h : Inv s) (dbNow now : Time) : Inv (step s (.replayDelivery dbNow now)) := by
  have hold : ∀ c ∈ s.openClaims, c.replays ≠ s.replays + 1 := fun c hc => by
    have := h.past c hc
    omega
  have hnone : (s.waiting.filter (·.replays = s.replays + 1)) = [] := by
    rw [List.filter_eq_nil_iff]
    intro c hc
    simpa using hold c (List.mem_append_left _ hc)
  exact
    { bound := Nat.zero_le _
      cap := h.cap
      past := fun c hc => (h.past c hc).trans (Nat.le_succ _)
      below := fun c hc hr => absurd hr (hold c hc)
      nodup := h.nodup
      count := by
        change (s.waiting.filter (·.replays = s.replays + 1)).length + 0 ≤ 0
        rw [hnone]
        exact Nat.le_refl _
      delivered := fun hd => by cases hd }

theorem inv_step (s : State) (a : Action) (h : Inv s) (ht : InTime s a) : Inv (step s a) := by
  cases a with
  | claimDueDeliveries dbNow now deliverable => exact inv_claim h dbNow now deliverable
  | performHttpAttempt c => exact inv_start h ht
  | recordAttempt c outcome now => exact inv_record h outcome now ht.1 ht.2
  | recordThrows c => exact inv_recordThrows h c
  | replayDelivery dbNow now => exact inv_replay h dbNow now

end Steps

/-! ## Runs -/

/-- An action in time leaves the row as it should. -/
theorem survives_step {s : State} {a : Action} (h : Inv s) (ht : InTime s a) : Survives s a := by
  have hstarted : (step s a).started ≤ MAX_DELIVERY_ATTEMPTS := by
    have h' := inv_step s a h ht
    have := h'.count
    have := h'.bound
    omega
  cases a with
  | claimDueDeliveries dbNow now deliverable =>
    refine ⟨fun hd hn => absurd ?_ hn, fun hlt => absurd hlt ?_, hstarted, fun c o n ha => by cases ha⟩
    all_goals
      rw [step]
      dsimp only
      rcases claimDueDeliveries_cases dbNow now deliverable s.row h.bound with
        he | ⟨r, he, hpend, hst, hat⟩ | ⟨r, he, hpend, hst, hat, hmax⟩ <;> rw [he]
    · exact hd
    · rw [hpend] at hd; cases hd
    · rw [hpend] at hd; cases hd
    · exact Nat.lt_irrefl _
    · dsimp only; omega
    · dsimp only; omega
  | performHttpAttempt c =>
    have hrow : (step s (.performHttpAttempt c)).row = s.row := by
      rw [step]
      split_ifs <;> rfl
    exact ⟨fun hd hn => absurd (hrow ▸ hd) hn, fun hlt => absurd (hrow ▸ hlt) (Nat.lt_irrefl _),
      hstarted, fun c o n ha => by cases ha⟩
  | recordAttempt c outcome now =>
    obtain ⟨hr, hle⟩ := ht
    refine ⟨fun hd hn => ?_, fun hlt => ?_, hstarted, fun d o n ha hs => ?_⟩
    · rw [step] at hn
      split_ifs at hn with hm
      · -- no outcome is in time for a delivered row
        have := h.delivered hd c (List.mem_append_right _ hm) hr
        omega
      · exact absurd hd hn
    · rw [step] at hlt
      split_ifs at hlt
      · rw [recordAttempt_attempts] at hlt
        omega
      · exact absurd hlt (Nat.lt_irrefl _)
    · cases ha
      omega
  | recordThrows c =>
    exact ⟨fun hd hn => absurd hd hn, fun hlt => absurd hlt (Nat.lt_irrefl _), hstarted,
      fun c o n ha => by cases ha⟩
  | replayDelivery dbNow now =>
    exact ⟨fun _ _ => rfl, fun _ => rfl, hstarted, fun c o n ha => by cases ha⟩

/-- **The row survives.** In every run in which no HTTP attempt starts and no outcome is recorded
after a replay that follows its claim, and no outcome after a later claim has counted a further
attempt, every action leaves the row as it should. -/
theorem survives_inTime (now : Time) (as : List Action)
    (h : Along step InTime (enqueued now) as) : Along step Survives (enqueued now) as := by
  rw [along_iff_forall_concat] at h ⊢
  intro bs a hbs
  have hpre : Along step InTime (enqueued now) bs := along_iff_forall_concat.mpr fun cs b hcs =>
    h cs b (hcs.trans ((List.prefix_append bs [a]).trans hbs))
  exact survives_step (invariant Inv inv_step (inv_enqueued now) hpre) (h bs a hbs)

/-! ## Two runs -/

/-- A 200, and a 500. -/
def answered (ok : Bool) : AttemptOutcome :=
  { ok := ok, status := some (if ok then 200 else 500), error := none, bodyPreview := none }

/-- A failed attempt, its retry a minute later delivered, and a replay. -/
def retried : List Action :=
  [.claimDueDeliveries 0 0 true, .performHttpAttempt ⟨0, 0⟩,
    .recordAttempt ⟨0, 0⟩ (answered false) 1000,
    .claimDueDeliveries 61000 61000 true, .performHttpAttempt ⟨1, 0⟩,
    .recordAttempt ⟨1, 0⟩ (answered true) 62000, .replayDelivery 90000 90000]

theorem survives_inTime_retried :
    Along step Survives (enqueued 0) retried ∧ (run step (enqueued 0) retried).started = 0 :=
  ⟨survives_inTime 0 retried (by decide), by decide⟩

/-- Three attempts are interrupted.  The fourth is slow: its lock expires and the row is claimed a
fifth time.  The fourth delivers. -/
def overtaken : List Action :=
  [.claimDueDeliveries 0 0 true, .claimDueDeliveries 30000 30000 true,
    .claimDueDeliveries 60000 60000 true,
    .claimDueDeliveries 90000 90000 true, .performHttpAttempt ⟨3, 0⟩,
    .claimDueDeliveries 120000 120000 true, .performHttpAttempt ⟨4, 0⟩,
    .recordAttempt ⟨3, 0⟩ (answered true) 121000]

/-- The slow outcome takes one off the count, and the failure of the fifth attempt makes the
delivered row a failed one. -/
theorem not_survives_overtaken :
    (run step (enqueued 0) overtaken).row.status = .delivered ∧
      (run step (enqueued 0) overtaken).row.attempts = 4 ∧
      (step (run step (enqueued 0) overtaken)
        (.recordAttempt ⟨4, 0⟩ (answered false) 122000)).row.status = .failed ∧
      ¬ Along step Survives (enqueued 0)
        (overtaken ++ [.recordAttempt ⟨4, 0⟩ (answered false) 122000]) := by
  refine ⟨by decide, by decide, by decide, fun h => ?_⟩
  have hlast := (along_append.mp h).2.1.delivered (by decide) (by decide)
  cases hlast

end BunMail.Webhooks
