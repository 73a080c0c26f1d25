import BunMail.Emails.QueueRun
import BunMail.Emails.RowLedger

/-!
# Claims, one after the other

A claim of the row and all its writes, before the next claim.  Such a turn is a run of the queue; it
leaves the delivery state of the row as it was, or it is an attempt that reached the mailer and whose
outcome was saved.
-/

namespace BunMail.Emails

open Run Queue

/-- One claim: who makes it and when, what the world answers, and how its writes end. -/
structure ClaimTurn where
  workerId : Text
  claimedAt : Time
  claimedAppAt : Time
  env : SendEnv
  fate : ℕ → Fate
  tx : ℕ → TxEnv

/-- The claim a turn makes, if the row can be claimed. -/
def ClaimTurn.email? (turn : ClaimTurn) (row : EmailRow) : Option ClaimedEmail :=
  claimNextEmails turn.workerId turn.claimedAt turn.claimedAppAt row

section Turns

variable (toLowerCase : Text → Text)

/-- The writes of a claim, with nobody else writing in between. -/
def writeEffect (turn : ClaimTurn) (email : ClaimedEmail) (db : QueueDb) : Effect → QueueDb
  | .release values events =>
    if turn.fate 0 = .rolledBack then db
    else (releaseRowWithEvents turn.workerId ⟨email.id, email.attempts⟩ values events (turn.tx 0) db).1
  | .record sent =>
    recordSendOutcome toLowerCase turn.workerId turn.env.decision email ⟨email.id, email.attempts⟩ sent
      turn.fate turn.tx db

/-- One claim of the row, from the claim to its last write. -/
def runTurn (db : QueueDb) (turn : ClaimTurn) : QueueDb :=
  match turn.email? db.row with
  | none => db
  | some email =>
    writeEffect toLowerCase turn email { db with row := email.toEmailRow }
      (sendClaimedEmail toLowerCase turn.env email ⟨email.id, email.attempts⟩)

/-! ## A turn is a run of the queue -/

section Refinement

variable {toLowerCase} {s : State} {w : Writer} {i : ℕ}

/-- The writes of claim `i` from try `n` on. -/
def ClaimTurn.writes (turn : ClaimTurn) (i n left : ℕ) : List Action :=
  (List.range' n left).map fun m => .write i (turn.fate m) (turn.tx m)

/-- A turn, step by step: the claim and its writes. -/
def ClaimTurn.actions (turn : ClaimTurn) (i : ℕ) : List Action :=
  .claimNextEmails turn.workerId turn.claimedAt turn.claimedAppAt turn.env ::
    turn.writes i 0 (OUTCOME_TRIES + 1)

theorem writes_succ (turn : ClaimTurn) (i n left : ℕ) :
    turn.writes i n (left + 1) = .write i (turn.fate n) (turn.tx n) :: turn.writes i (n + 1) left := by
  unfold ClaimTurn.writes
  rw [List.range'_succ, List.map_cons]

/-- A claim that is done writes nothing more. -/
theorem run_writes_done (turn : ClaimTurn) (h : ∀ w ∈ s.writers[i]?, w.done = true) (n left : ℕ) :
    run (step toLowerCase) s (turn.writes i n left) = s := by
  induction left generalizing n with
  | zero => rfl
  | succ left ih =>
    rw [writes_succ, run_cons]
    have hstep : step toLowerCase s (.write i (turn.fate n) (turn.tx n)) = s := by
      rw [step, State.write]
      cases hw : s.writers[i]? with
      | none => rfl
      | some w => exact if_pos (h w hw)
    rw [hstep]
    exact ih (n + 1)

theorem getElem?_set_writer {w' : Writer} (hw : s.writers[i]? = some w) :
    (s.writers.set i w')[i]? = some w' := by
  obtain ⟨hi, _⟩ := List.getElem?_eq_some_iff.mp hw
  rw [List.getElem?_set_self hi]

/-- The writes of an outcome, with no other step in between, are `recordSendOutcome`. -/
theorem db_run_writes {turn : ClaimTurn} {sent : SentAttempt} {n left : ℕ}
    (hw : s.writers[i]? = some w) (he : w.effect = .record sent) (hd : w.done = false)
    (ht : w.tries = n) (hn : n + left = OUTCOME_TRIES + 1) :
    (run (step toLowerCase) s (turn.writes i n left)).db =
      writesFrom toLowerCase w.workerId w.env.decision w.email w.claim sent turn.fate turn.tx n left
        s.db := by
  induction left generalizing s w n with
  | zero => rfl
  | succ left ih =>
    have htx : w.transaction toLowerCase (turn.tx n) s.db = writeOutcome toLowerCase w.workerId
        w.env.decision w.email w.claim sent (n < OUTCOME_TRIES) (turn.tx n) s.db := by
      unfold Writer.transaction Writer.withEvents
      rw [he, ht]
    -- after a failed try: the next one, or nothing more once the degraded write was
    have hfail : ∀ (db : QueueDb) (commits : List Commit),
        (run (step toLowerCase) ⟨db, s.writers.set i w.afterFailure, commits⟩
          (turn.writes i (n + 1) left)).db =
        writesFrom toLowerCase w.workerId w.env.decision w.email w.claim sent turn.fate turn.tx (n + 1)
          left db := by
      intro db commits
      have hw' : w.afterFailure = { w with tries := w.tries + 1, done := !w.withEvents } := by
        unfold Writer.afterFailure
        rw [he]
      cases left with
      | zero => rfl
      | succ left =>
        have hlt : w.withEvents = true := by
          unfold Writer.withEvents
          rw [ht, decide_eq_true_eq]
          omega
        rw [hlt] at hw'
        rw [hw']
        exact ih (s := ⟨db, _, commits⟩) (w := { w with tries := w.tries + 1, done := false })
          (getElem?_set_writer hw) he rfl (by rw [ht]) (by omega)
    rw [writes_succ, run_cons, step, State.write, hw]
    dsimp only
    rw [if_neg (by rw [hd]; exact Bool.false_ne_true), htx, writesFrom]
    cases turn.fate n <;>
      cases writeOutcome toLowerCase w.workerId w.env.decision w.email w.claim sent
        (n < OUTCOME_TRIES) (turn.tx n) s.db <;> dsimp only
    · exact hfail s.db s.commits
    · rw [run_writes_done]
      intro w' hw'
      rw [getElem?_set_writer hw] at hw'
      rw [← Option.some.inj hw']
    · exact hfail s.db s.commits
    · exact hfail _ _
    · exact hfail s.db s.commits
    · exact hfail s.db s.commits

/-- A release that is not an outcome is one write. -/
theorem db_run_release {turn : ClaimTurn} {values : RowValues} {events : List WebhookEvent} {left : ℕ}
    (hw : s.writers[i]? = some w) (he : w.effect = .release values events) (hd : w.done = false) :
    (run (step toLowerCase) s (turn.writes i 0 (left + 1))).db =
      if turn.fate 0 = .rolledBack then s.db
      else (releaseRowWithEvents w.workerId w.claim values events (turn.tx 0) s.db).1 := by
  have hdone : ∀ (db : QueueDb) (commits : List Commit) (w' : Writer), w'.done = true →
      (run (step toLowerCase) ⟨db, s.writers.set i w', commits⟩ (turn.writes i 1 left)).db = db := by
    intro db commits w' hd'
    rw [run_writes_done]
    intro x hx
    rw [getElem?_set_writer hw] at hx
    rw [← Option.some.inj hx]
    exact hd'
  have hfail : w.afterFailure.done = true := by
    unfold Writer.afterFailure
    rw [he]
  have htx : w.transaction toLowerCase (turn.tx 0) s.db =
      .ok (releaseRowWithEvents w.workerId w.claim values events (turn.tx 0) s.db) := by
    unfold Writer.transaction
    rw [he]
  rw [writes_succ, run_cons, step, State.write, hw]
  dsimp only
  rw [if_neg (by rw [hd]; exact Bool.false_ne_true), htx]
  cases turn.fate 0 with
  | rolledBack => exact hdone _ _ _ hfail
  | committed => exact hdone _ _ _ rfl
  | ackLost => exact hdone _ _ _ hfail

/-- **A turn is a run of the queue.** -/
theorem db_run_actions (turn : ClaimTurn) :
    (run (step toLowerCase) s (turn.actions s.writers.length)).db = runTurn toLowerCase s.db turn := by
  unfold ClaimTurn.actions runTurn ClaimTurn.email?
  rw [run_cons, step, State.claim]
  cases claimNextEmails turn.workerId turn.claimedAt turn.claimedAppAt s.db.row with
  | none =>
    dsimp only
    rw [run_writes_done]
    intro w hw
    rw [List.getElem?_eq_none (le_refl _)] at hw
    cases hw
  | some email =>
    dsimp only
    obtain ⟨w, hw⟩ : ∃ w, w = Writer.start toLowerCase turn.workerId turn.env email := ⟨_, rfl⟩
    have hget : (s.writers ++ [w])[s.writers.length]? = some w := List.getElem?_concat_length
    have heff : w.effect =
        sendClaimedEmail toLowerCase turn.env email ⟨email.id, email.attempts⟩ := by
      rw [hw]
      rfl
    have hdone : w.done = false := by rw [hw]; rfl
    rw [← hw]
    cases he : sendClaimedEmail toLowerCase turn.env email ⟨email.id, email.attempts⟩ with
    | record sent =>
      rw [he] at heff
      rw [db_run_writes hget heff hdone (by rw [hw]; rfl) (Nat.zero_add _), hw]
      rfl
    | release values events =>
      rw [he] at heff
      rw [db_run_release hget heff hdone, hw]
      rfl

/-- Whatever the turns, the queue can take the same steps. -/
theorem exists_run_turns (turns : List ClaimTurn) :
    ∃ as, (run (step toLowerCase) s as).db = run (runTurn toLowerCase) s.db turns := by
  induction turns generalizing s with
  | nil => exact ⟨[], rfl⟩
  | cons turn turns ih =>
    obtain ⟨as, has⟩ := @ih (run (step toLowerCase) s (turn.actions s.writers.length))
    refine ⟨turn.actions s.writers.length ++ as, ?_⟩
    rw [run_append, has, db_run_actions, run_cons]

end Refinement

/-! ## Saved attempts -/

/-- An attempt whose outcome was saved: the row before the claim, the claim and what it was
answered, what the mailer left, and the row after. -/
structure SavedAttempt where
  before : EmailRow
  email : ClaimedEmail
  env : SendEnv
  sent : SentAttempt
  after : EmailRow

/-- What the attempt decided. -/
def SavedAttempt.outcome (x : SavedAttempt) : RowOutcome :=
  decideRowOutcome x.env.decision x.email x.sent

/-- The attempt a turn makes, if it reaches the mailer and its outcome is saved: a row whose outcome
is not saved stays `sending`. -/
def savedAttempt? (db : QueueDb) (turn : ClaimTurn) : Option SavedAttempt :=
  match turn.email? db.row with
  | none => none
  | some email =>
    match sendClaimedEmail toLowerCase turn.env email ⟨email.id, email.attempts⟩ with
    | .release .. => none
    | .record sent =>
      let after := (runTurn toLowerCase db turn).row
      if after.status = .sending then none else some ⟨db.row, email, turn.env, sent, after⟩

/-- The saved attempts of a sequence of claims, in order. -/
def savedAttempts : QueueDb → List ClaimTurn → List SavedAttempt
  | _, [] => []
  | db, turn :: turns =>
    (savedAttempt? toLowerCase db turn).toList ++ savedAttempts (runTurn toLowerCase db turn) turns

/-- What is known of a saved attempt. -/
structure Saved (x : SavedAttempt) (result : SendMailResult) : Prop where
  attempts : x.email.attempts = x.before.attempts + 1
  lastError : x.email.lastError = x.before.lastError
  deliveryState : x.email.deliveryState = x.before.deliveryState
  addresses : x.email.envelope = x.before.envelope
  mailed : sendMail toLowerCase (sendOptionsOf x.env x.email) x.env.mailer = .ok result
  sent : x.sent = sentAttemptOf x.env x.email result
  released : Released x.outcome.values x.email.toEmailRow x.after

variable {toLowerCase} {db : QueueDb}

theorem status_decideRowOutcome (decision : DecisionEnv) (email : ClaimedEmail) (sent : SentAttempt) :
    (decideRowOutcome decision email sent).values.status ≠ .sending := by
  cases ht : (decideRowOutcome decision email sent).isTerminal with
  | false =>
    rw [(of_isTerminal_eq_false ht).1]
    decide
  | true =>
    rw [of_isTerminal ht]
    unfold finalStatusOf
    split_ifs <;> decide

/-- A release of `sendClaimedEmail` leaves the delivery state alone. -/
theorem deliveryState_of_release {env : SendEnv} {email : ClaimedEmail} {claim : Claim}
    {values : RowValues} {events : List WebhookEvent}
    (h : sendClaimedEmail toLowerCase env email claim = .release values events) :
    values.deliveryState = none := by
  have hcases := sendClaimedEmail_cases toLowerCase env email claim
  rw [h] at hcases
  rcases hcases with ⟨_, _, _, hr, _⟩ | ⟨_, ⟨_, _, hr⟩ | ⟨_, _, hr⟩⟩ <;> cases hr <;> rfl

/-- An outcome that was not saved leaves the claimed row, and one that was releases it. -/
theorem record_cases {workerId : Text} {decision : DecisionEnv} {email : ClaimedEmail} {claim : Claim}
    {sent : SentAttempt} {fate : ℕ → Fate} {tx : ℕ → TxEnv} {db' : QueueDb}
    (h : recordSendOutcome toLowerCase workerId decision email claim sent fate tx db = db')
    (hid : email.id ∈ db.list.emails) (hrow : db.row = email.toEmailRow)
    (hheld : heldBy workerId claim db.row = true) :
    db'.row.id ∈ db'.list.emails ∧ (db'.row = email.toEmailRow ∨ db'.row.status ≠ .sending ∧
      Released (decideRowOutcome decision email sent).values email.toEmailRow db'.row) := by
  have hspec : OnlyBounces db (recordSendOutcome toLowerCase workerId decision email claim sent fate tx
      db) ∨ _ := recordSendOutcome_spec hid hheld
  rw [h] at hspec
  rcases hspec with hb | ⟨m, _, hr⟩
  · rw [hb.row, hb.emails, hrow]
    exact ⟨hid, .inl rfl⟩
  · have hrel : Released (decideRowOutcome decision email sent).values email.toEmailRow
        db'.row := by
      rw [hr.row, ← hrow]
      exact released_of_held hheld
    refine ⟨?_, .inr ⟨?_, hrel⟩⟩
    · rw [hr.emails, hr.row, id_releaseRow, hrow]
      exact hid
    · rw [hrel.status]
      exact status_decideRowOutcome decision email sent

variable (toLowerCase) in
/-- **One turn.** The row keeps its delivery state, or the turn is a saved attempt. -/
theorem turn_spec (hid : db.row.id ∈ db.list.emails) (turn : ClaimTurn) :
    (runTurn toLowerCase db turn).row.id ∈ (runTurn toLowerCase db turn).list.emails ∧
      (savedAttempt? toLowerCase db turn = none ∧
          (runTurn toLowerCase db turn).row.deliveryState = db.row.deliveryState ∧
          (runTurn toLowerCase db turn).row.envelope = db.row.envelope ∨
        ∃ x result, savedAttempt? toLowerCase db turn = some x ∧ x.before = db.row ∧
          x.after = (runTurn toLowerCase db turn).row ∧ Saved toLowerCase x result) := by
  unfold savedAttempt?
  unfold runTurn
  cases hc : turn.email? db.row with
  | none => exact ⟨hid, .inl ⟨rfl, rfl, rfl⟩⟩
  | some email =>
    obtain ⟨_, hemail⟩ := claimNextEmails_eq_some hc
    have hid' : email.id ∈ db.list.emails := by rw [hemail]; exact hid
    have hheld : heldBy turn.workerId ⟨email.id, email.attempts⟩ email.toEmailRow = true := by
      rw [heldBy_iff, hemail]
      exact ⟨rfl, rfl, rfl, rfl⟩
    have hsame : email.deliveryState = db.row.deliveryState ∧ email.envelope = db.row.envelope := by
      rw [hemail]
      exact ⟨rfl, rfl⟩
    dsimp only
    cases he : sendClaimedEmail toLowerCase turn.env email ⟨email.id, email.attempts⟩ with
    | release values events =>
      dsimp only [writeEffect]
      split_ifs with hf
      · exact ⟨hid', .inl ⟨rfl, hsame⟩⟩
      · have hrow : Released values email.toEmailRow (releaseRow turn.workerId
            ⟨email.id, email.attempts⟩ values (turn.tx 0).now (turn.tx 0).appNow email.toEmailRow).1 :=
          released_of_held hheld
        rw [releaseRowWithEvents_of_held hheld]
        refine ⟨by rw [id_releaseRow]; exact hid', .inl ⟨rfl, ?_, hrow.addresses.trans hsame.2⟩⟩
        rw [hrow.deliveryState, deliveryState_of_release he]
        exact hsame.1
    | record sent =>
      dsimp only [writeEffect]
      have hcases := sendClaimedEmail_cases toLowerCase turn.env email ⟨email.id, email.attempts⟩
      rw [he] at hcases
      have hresult : ∃ result, sendMail toLowerCase (sendOptionsOf turn.env email) turn.env.mailer =
          .ok result ∧ sent = sentAttemptOf turn.env email result := by
        rcases hcases with ⟨_, _, _, hr, _⟩ | ⟨_, ⟨result, hs, hr⟩ | ⟨_, _, hr⟩⟩
        · cases hr
        · exact ⟨result, hs, Effect.record.inj hr⟩
        · cases hr
      obtain ⟨result, hsend, hsent⟩ := hresult
      obtain ⟨db', hdb'⟩ : ∃ db', recordSendOutcome toLowerCase turn.workerId turn.env.decision email
        ⟨email.id, email.attempts⟩ sent turn.fate turn.tx { db with row := email.toEmailRow } = db' :=
        ⟨_, rfl⟩
      obtain ⟨hid'', hcase⟩ := record_cases hdb' hid' rfl hheld
      simp only [hdb']
      refine ⟨hid'', ?_⟩
      rcases hcase with hrow | ⟨hstatus, hrow⟩
      · have hsending : db'.row.status = .sending := by rw [hrow, hemail]
        rw [if_pos hsending, hrow]
        exact .inl ⟨rfl, hsame⟩
      · rw [if_neg hstatus]
        refine .inr ⟨_, result, rfl, rfl, rfl, ?_⟩
        exact ⟨by rw [hemail], by rw [hemail], hsame.1, hsame.2, hsend, hsent, hrow⟩

end Turns

end BunMail.Emails
