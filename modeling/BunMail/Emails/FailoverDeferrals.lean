import BunMail.Emails.FailoverOnce

/-!
# What a deferral says about the attempt

An outcome carries `deferredMs` because a bucket had no token left for its transaction.  The
transaction may have been in a session before, at a host of another bucket, and moved on from there:
the deferral then hides that session.  Deferrals are of untried transactions exactly when no bucket of
the attempt leaves a transaction without a token that was in a session already.
-/

namespace BunMail.Emails.FailoverLog

open Run SmtpError

/-- A session answers with one outcome for each of its transactions. -/
def Call.OneOutcomeEach (call : Call) : Prop :=
  ∀ i j s, ((call.runSession i j s).map MxSessionOutcome.key).Perm
    (s.transactions.map MxTransaction.key)

/-- Some session of the attempt so far contained the transaction. -/
def Progress.Tried (st : Progress) (key : Text) : Prop :=
  ∃ v ∈ st.visits, key ∈ v.session.map MxTransaction.key

instance (st : Progress) (key : Text) : Decidable (st.Tried key) :=
  inferInstanceAs (Decidable (∃ v ∈ st.visits, _))

/-- The stop leaves no transaction without a token that was in a session already. -/
def SparesTried (call : Call) (st : Progress) : Stop → Prop
  | .skip _ => True
  | .address i mxHost j _ =>
    st.GoesOn → ∀ t ∈ deniedAt call i j (call.bucketOf mxHost) st, ¬ st.Tried t.key

instance (call : Call) (st : Progress) : ∀ stop, Decidable (SparesTried call st stop)
  | .skip _ => inferInstanceAs (Decidable True)
  | .address .. => inferInstanceAs (Decidable (st.GoesOn → ∀ t ∈ _, ¬ st.Tried _))

/-- Every stop of the attempt does. -/
def SparesAllTried (call : Call) : Prop :=
  Along (step call) (SparesTried call) (start call) (stops call)

instance (call : Call) : Decidable (SparesAllTried call) := Along.decidable _ _ _ _

/-- An outcome carries `deferredMs` only if no session of the attempt contained its transaction. -/
def DeferredUntried (call : Call) : Prop :=
  ∀ o ∈ deliverWithFailover call, o.deferredMs ≠ none → ¬ (attempt call).Tried o.key

instance (call : Call) : Decidable (DeferredUntried call) :=
  inferInstanceAs (Decidable (∀ o ∈ _, _ → _))

section Deferrals

variable {call : Call} {st st' : Progress} {v : Visit}

/-- The deferrals among what is done are of untried transactions. -/
def DoneUntried (st : Progress) : Prop :=
  ∀ key o, st.done.get? key = some o → o.deferredMs ≠ none → ¬ st.Tried key

/-- What else the argument carries along. -/
structure DeferInv (call : Call) (st : Progress) : Prop where
  inv : Inv call st
  known : ∀ key ∈ st.done.keys, key ∈ call.transactions.map MxTransaction.key
  failures : NoDeferrals st.lastFailure

theorem tried_congr (h : st'.visits = st.visits) (key : Text) : st'.Tried key ↔ st.Tried key := by
  unfold Progress.Tried
  rw [h]

/-- A visit tries the transactions of its session. -/
theorem Visited.tried (hv : Visited call st v st') (key : Text) :
    st'.Tried key ↔ st.Tried key ∨ key ∈ v.session.map MxTransaction.key := by
  unfold Progress.Tried
  rw [hv.visits]
  simp only [List.mem_append, List.mem_singleton, or_and_right, exists_or, exists_eq_left]

/-- The outcomes of a visit are those of its session. -/
theorem Visited.mem_outcomes (hv : Visited call st v st') (hrun : call.OneOutcomeEach) {key : Text}
    (hk : key ∈ v.outcomes.map MxSessionOutcome.key) : key ∈ v.session.map MxTransaction.key := by
  rcases hv.answered with hnil | ⟨i, j, deadlineMs, heq⟩
  · rw [hnil] at hk
    cases hk
  · rw [heq] at hk
    exact (hrun i j _).subset hk

/-- Who is left without a token was pending, and is not in the session. -/
theorem Visited.denied_pending (hv : Visited call st v st') {key : Text}
    (hk : key ∈ v.denied.map MxTransaction.key) :
    key ∈ st.pending.map MxTransaction.key ∧ key ∉ v.session.map MxTransaction.key := by
  constructor
  · obtain ⟨t, ht, rfl⟩ := List.mem_map.mp hk
    exact List.mem_map_of_mem (hv.mem_uncharged (List.mem_append_right _ ht)).1
  · intro hs
    obtain ⟨t, ht, rfl⟩ := List.mem_map.mp hs
    exact (hv.mem_session.mp ht).2 hk

theorem Visited.session_pending (hv : Visited call st v st') {key : Text}
    (hk : key ∈ v.session.map MxTransaction.key) : key ∈ st.pending.map MxTransaction.key := by
  obtain ⟨t, ht, rfl⟩ := List.mem_map.mp hk
  exact List.mem_map_of_mem (hv.mem_session.mp ht).1

theorem Inv.not_done (h : Inv call st) {key : Text} (hk : key ∈ st.pending.map MxTransaction.key) :
    key ∉ st.done.keys := by
  obtain ⟨t, ht, rfl⟩ := List.mem_map.mp hk
  exact h.undone t ht

theorem Visited.settled_session (hv : Visited call st v st') (hrun : call.OneOutcomeEach) {key : Text}
    (hk : key ∈ v.settled) : key ∈ v.session.map MxTransaction.key :=
  hv.mem_outcomes hrun ((List.filter_sublist.map MxSessionOutcome.key).subset hk)

/-- **Step.** A turn keeps deferrals to untried transactions exactly when it spares the tried
ones. -/
theorem doneUntried_visited (h : Inv call st) (hrun : call.OneOutcomeEach)
    (hv : Visited call st v st') :
    DoneUntried st' ↔ DoneUntried st ∧ ∀ t ∈ v.denied, ¬ st.Tried t.key := by
  constructor
  · intro hdone
    refine ⟨fun key o ho hdef htried => ?_, fun t ht htried => ?_⟩
    · -- what is done stays as it was
      have hmem : key ∈ st.done.keys := Table.get?_isSome_iff.mp (by rw [ho]; rfl)
      rcases hv.outcome key with ⟨_, heq⟩ | ⟨hd, _⟩ | ⟨hs, _⟩
      · exact hdone key o (heq.trans ho) hdef ((hv.tried key).mpr (.inl htried))
      · exact h.not_done (hv.denied_pending hd).1 hmem
      · exact h.not_done (hv.session_pending (hv.mem_outcomes hrun hs)) hmem
    · have hd : t.key ∈ v.denied.map MxTransaction.key := List.mem_map_of_mem ht
      rcases hv.outcome t.key with ⟨hn, _⟩ | ⟨_, o, ho, hdef⟩ | ⟨hs, _⟩
      · exact hn hd
      · exact hdone t.key o ho hdef ((hv.tried t.key).mpr (.inl htried))
      · exact (hv.denied_pending hd).2 (hv.mem_outcomes hrun hs)
  · rintro ⟨hdone, hspares⟩ key o ho hdef htried
    rcases hv.outcome key with ⟨_, heq⟩ | ⟨hd, _⟩ | ⟨_, o', ho', hnone⟩
    · rw [heq] at ho
      have hmem : key ∈ st.done.keys := Table.get?_isSome_iff.mp (by rw [ho]; rfl)
      rcases (hv.tried key).mp htried with ht | hs
      · exact hdone key o ho hdef ht
      · exact h.not_done (hv.session_pending hs) hmem
    · rcases (hv.tried key).mp htried with ht | hs
      · obtain ⟨t, htm, rfl⟩ := List.mem_map.mp hd
        exact hspares t htm ht
      · exact (hv.denied_pending hd).2 hs
    · rw [ho'] at ho
      cases ho
      exact hdef hnone

theorem deferInv_step (hrun : call.OneOutcomeEach) (h : DeferInv call st) (stop : Stop) :
    DeferInv call (step call st stop) := by
  refine ⟨inv_step h.inv stop, ?_, ?_⟩
  · rcases step_cases call st stop with heq | hs | ⟨_, _, _, _, _, _, hv⟩
    · rw [heq]
      exact h.known
    · rw [hs.done]
      exact h.known
    · intro key hk
      have hpending : ∀ key ∈ st.pending.map MxTransaction.key,
          key ∈ call.transactions.map MxTransaction.key :=
        fun key hk => (h.inv.pending.map MxTransaction.key).subset hk
      rcases (hv.done key).mp hk with hk | hk | hk
      · exact h.known key hk
      · exact hpending key (hv.denied_pending hk).1
      · exact hpending key (hv.session_pending (hv.settled_session hrun hk))
  · rcases step_cases call st stop with heq | hs | ⟨_, _, _, _, _, _, hv⟩
    · rw [heq]
      exact h.failures
    · exact hs.lastFailure h.failures
    · exact hv.lastFailure h.failures

theorem doneUntried_step (hrun : call.OneOutcomeEach) (h : DeferInv call st) (stop : Stop) :
    DoneUntried (step call st stop) ↔ DoneUntried st ∧ SparesTried call st stop := by
  by_cases hgo : st.GoesOn
  · cases stop with
    | skip e =>
      obtain ⟨hvisits, _, _, hdone, _⟩ := skipped_skipHost hgo e
      have hiff : DoneUntried (skipHost st e) ↔ DoneUntried st := by
        unfold DoneUntried
        simp only [hdone, tried_congr hvisits]
      exact hiff.trans (and_iff_left trivial).symm
    | address i mxHost j a =>
      refine (doneUntried_visited h.inv hrun (visited_tryAddress hgo i mxHost (a, j))).trans ?_
      exact and_congr_right fun _ => ⟨fun hs _ => hs, fun hs => hs hgo⟩
  · rw [step_of_not_goesOn hgo]
    have hspares : SparesTried call st stop := by
      cases stop with
      | skip e => trivial
      | address i mxHost j a => exact fun hgo' => absurd hgo' hgo
    exact (and_iff_left hspares).symm

theorem deferInv_start (call : Call) : DeferInv call (start call) :=
  ⟨inv_start call, fun _ h => (by cases h), fun _ _ h => (by cases h)⟩

/-- **Run.** -/
theorem doneUntried_attempt (hrun : call.OneOutcomeEach) :
    DoneUntried (attempt call) ↔ SparesAllTried call := by
  rw [attempt_eq_run, Run.iff_along (DeferInv call) DoneUntried
    (fun _ stop h => deferInv_step hrun h stop) (fun _ stop h => doneUntried_step hrun h stop)
    (deferInv_start call)]
  refine and_iff_right fun key o ho => ?_
  cases ho

/-- The outcome of a transaction. -/
theorem outcome_deferred {o : RoutedOutcome} (h : NoDeferrals (attempt call).lastFailure)
    (ho : o ∈ deliverWithFailover call) (hdef : o.deferredMs ≠ none) :
    ∃ t ∈ call.transactions, (attempt call).done.get? t.key = some o := by
  obtain ⟨t, ht, heq⟩ := List.mem_map.mp ho
  refine ⟨t, ht, ?_⟩
  cases hd : (attempt call).done.get? t.key with
  | some o' =>
    rw [hd] at heq
    rw [← heq]
    rfl
  | none =>
    exfalso
    rw [hd] at heq
    cases hl : (attempt call).lastFailure.get? t.key with
    | some o' =>
      rw [hl] at heq
      have heq' : o' = o := heq
      exact hdef (heq' ▸ h _ _ hl)
    | none =>
      rw [hl] at heq
      rw [← heq] at hdef
      exact hdef rfl

/-- **Deferrals of an attempt.** They are of untried transactions exactly when every stop spares the
tried ones. -/
theorem deferredUntried_iff (hrun : call.OneOutcomeEach) :
    DeferredUntried call ↔ SparesAllTried call := by
  rw [← doneUntried_attempt hrun]
  have hinv : DeferInv call (attempt call) := by
    rw [attempt_eq_run]
    exact foldl_invariant (DeferInv call) (fun _ stop h => deferInv_step hrun h stop)
      (deferInv_start call) _
  have hfiled : (attempt call).toFailover.Filed := filed_attempt call
  constructor
  · intro h key o ho hdef htried
    have hmem : key ∈ (attempt call).done.keys := Table.get?_isSome_iff.mp (by rw [ho]; rfl)
    obtain ⟨t, ht, rfl⟩ := List.mem_map.mp (hinv.known key hmem)
    refine h o (List.mem_map.mpr ⟨t, ht, ?_⟩) hdef ((hfiled.1 _ _ ho).symm ▸ htried)
    rw [ho]
    rfl
  · intro h o ho hdef
    obtain ⟨t, _, hget⟩ := outcome_deferred hinv.failures ho hdef
    rw [hfiled.1 _ _ hget]
    exact h t.key o hget hdef

end Deferrals

end BunMail.Emails.FailoverLog
