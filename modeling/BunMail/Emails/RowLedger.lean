import BunMail.Emails.QueueOutcome
import BunMail.Emails.Settled

/-!
# The delivery state of a row

A claimed row is one attempt on the ledger of its delivery state.  What the attempt leaves is what
its outcome stores, so the entries it finds settled are still settled in the row it saves, and the
statuses the decision looks up are those of the entries stored before.
-/

namespace BunMail.Emails

open Run

/-! ## Entries by status -/

section Entries

variable {state : DeliveryState}

theorem any_status_iff {status : DeliveryGroupStatus} :
    (state.rows.any (·.2.status = status)) = true ↔
      ∃ key group, state.get? key = some group ∧ group.status = status := by
  rw [List.any_eq_true]
  constructor
  · rintro ⟨⟨key, group⟩, hm, hs⟩
    exact ⟨key, group, Table.get?_eq_some_iff.mpr hm, of_decide_eq_true hs⟩
  · rintro ⟨key, group, hg, hs⟩
    exact ⟨(key, group), Table.get?_eq_some_iff.mp hg, decide_eq_true hs⟩

theorem anySent_iff :
    anySent state = true ↔ ∃ key group, state.get? key = some group ∧ group.status = .sent :=
  any_status_iff

theorem anyRetry_iff :
    anyRetry state = true ↔ ∃ key group, state.get? key = some group ∧ group.status = .retry :=
  any_status_iff

theorem anySent_jsonb : anySent (jsonb state) = anySent state := by
  rw [Bool.eq_iff_iff, anySent_iff, anySent_iff]
  simp only [get?_jsonb]

theorem anyRetry_jsonb : anyRetry (jsonb state) = anyRetry state := by
  rw [Bool.eq_iff_iff, anyRetry_iff, anyRetry_iff]
  simp only [get?_jsonb]

/-- Rewriting entries without changing which of them are sent. -/
theorem anySent_mapValues {f : Text → DeliveryGroup → DeliveryGroup}
    (hf : ∀ key group, (f key group).status = .sent ↔ group.status = .sent) :
    anySent (state.mapValues f) = anySent state := by
  rw [Bool.eq_iff_iff, anySent_iff, anySent_iff]
  constructor
  · rintro ⟨key, group, hg, hs⟩
    rw [Table.get?_mapValues] at hg
    obtain ⟨group₀, h₀, rfl⟩ := Option.map_eq_some_iff.mp hg
    exact ⟨key, group₀, h₀, (hf key group₀).mp hs⟩
  · rintro ⟨key, group, hg, hs⟩
    refine ⟨key, f key group, ?_, (hf key group).mpr hs⟩
    rw [Table.get?_mapValues, hg, Option.map_some]

/-- The end of the retry window neither adds nor removes a delivery. -/
theorem anySent_finalStateOf (deferred : List Text) :
    anySent (finalStateOf state deferred) = anySent state := by
  apply anySent_mapValues
  intro key group
  unfold flipGroup
  split_ifs with hr
  · rfl
  all_goals rw [not_not.mp hr]; decide

/-- Suppression neither adds nor removes a delivery. -/
theorem anySent_dropSuppressedRecipients (isSuppressed : Text → Bool) (now : Time) :
    anySent (dropSuppressedRecipients isSuppressed now state) = anySent state := by
  apply anySent_mapValues
  intro key group
  unfold dropGroup
  dsimp only
  split_ifs with hr
  · rfl
  · rfl
  · rw [not_not.mp hr]; decide
  · rfl

/-- Nothing is pending at the end. -/
theorem anyRetry_finalStateOf (deferred : List Text) :
    anyRetry (finalStateOf state deferred) = false := by
  rw [← Bool.not_eq_true, anyRetry_iff]
  rintro ⟨key, group, hg, hs⟩
  rw [finalStateOf, Table.get?_mapValues] at hg
  obtain ⟨group₀, _, rfl⟩ := Option.map_eq_some_iff.mp hg
  unfold flipGroup at hs
  split_ifs at hs with h₀
  exact h₀ hs

end Entries

/-! ## The events of an outcome -/

section Decision

variable {decision : DecisionEnv} {email : ClaimedEmail} {sent : SentAttempt}

/-- The outcome ends the row. -/
def RowOutcome.isTerminal : RowOutcome → Bool
  | .terminal .. => true
  | .deferred .. | .retry .. => false

/-- An attempt that did nothing finds every sent entry sent before. -/
theorem anySentBefore_of_not_attempted (h : attempted sent = false)
    (hs : anySent sent.deliveryState = true) : anySentBefore sent.priorStatuses = true := by
  obtain ⟨key, group, hg, hsent⟩ := anySent_iff.mp hs
  unfold attempted at h
  rw [Bool.or_eq_false_iff, List.any_eq_false] at h
  have hprior := h.2 (key, group) (Table.get?_eq_some_iff.mp hg)
  dsimp only at hprior
  rw [hsent] at hprior
  have hget : sent.priorStatuses.get? key = some .sent := by simpa using hprior
  exact List.any_eq_true.mpr ⟨(key, .sent), Table.get?_eq_some_iff.mp hget, rfl⟩

/-- **`email.sent`** is raised by the attempt that makes the first delivery. -/
theorem any_isSent_events_iff : (decideRowOutcome decision email sent).events.any (·.isSent) = true ↔
    anySent sent.deliveryState = true ∧ anySentBefore sent.priorStatuses = false := by
  rcases decideRowOutcome_cases decision email sent with ⟨_, _, ha, ho⟩ | ⟨_, _, _, ho⟩ | ⟨_, ho⟩
  · -- a pure deferral raises nothing, and whatever is sent was sent before
    rw [ho]
    refine iff_of_false Bool.false_ne_true ?_
    rintro ⟨hs, hb⟩
    rw [anySentBefore_of_not_attempted ha hs] at hb
    cases hb
  · rw [ho]
    unfold retryOutcome RowOutcome.events
    cases anySent sent.deliveryState <;> cases anySentBefore sent.priorStatuses <;>
      simp [sentEvent, WebhookEvent.isSent]
  · rw [ho]
    unfold terminalOutcome RowOutcome.events
    dsimp only
    rw [anySent_finalStateOf]
    cases anySent sent.deliveryState <;> cases anySentBefore sent.priorStatuses <;>
      simp [sentEvent, WebhookEvent.isSent]

/-- **`email.failed`** is raised at the end of an email nothing of which was delivered. -/
theorem of_any_isFailed_events
    (h : (decideRowOutcome decision email sent).events.any (·.isFailed) = true) :
    (decideRowOutcome decision email sent).isTerminal = true ∧
      anySent sent.deliveryState = false := by
  rcases decideRowOutcome_cases decision email sent with ⟨_, _, _, ho⟩ | ⟨_, _, _, ho⟩ | ⟨_, ho⟩
  · rw [ho] at h
    cases h
  · rw [ho] at h
    unfold retryOutcome RowOutcome.events at h
    dsimp only at h
    split_ifs at h <;> cases h
  · rw [ho] at h ⊢
    unfold terminalOutcome RowOutcome.events at h
    dsimp only at h
    rw [anySent_finalStateOf] at h
    refine ⟨rfl, ?_⟩
    cases hs : anySent sent.deliveryState with
    | false => rfl
    | true =>
      rw [hs] at h
      simp only [Bool.not_true, Bool.false_and, Bool.false_eq_true, if_false, List.append_nil] at h
      split_ifs at h <;> cases h

/-- What an outcome that does not end the row sets. -/
theorem of_isTerminal_eq_false (h : (decideRowOutcome decision email sent).isTerminal = false) :
    (decideRowOutcome decision email sent).values.status = .queued ∧
      anyRetry sent.deliveryState = true ∧
      ((decideRowOutcome decision email sent).values.attempts = none ∨
        (decideRowOutcome decision email sent).values.attempts = some (email.attempts - 1) ∧
          (decideRowOutcome decision email sent).events = []) := by
  have hretry : ∀ {delay}, retryDelayMs decision email sent = some delay →
      anyRetry sent.deliveryState = true := by
    intro delay hd
    have hp := (Option.filter_eq_some_iff.mp hd).2
    rw [Bool.and_eq_true] at hp
    exact hp.1
  rcases decideRowOutcome_cases decision email sent with ⟨_, hd, _, ho⟩ | ⟨_, hd, _, ho⟩ | ⟨_, ho⟩
  · rw [ho]
    exact ⟨rfl, hretry hd, .inr ⟨rfl, rfl⟩⟩
  · rw [ho]
    exact ⟨rfl, hretry hd, .inl rfl⟩
  · rw [ho] at h
    cases h

/-- What an outcome that ends the row sets. -/
theorem of_isTerminal (h : (decideRowOutcome decision email sent).isTerminal = true) :
    (decideRowOutcome decision email sent).values.status =
      finalStatusOf (finalStateOf sent.deliveryState sent.deferredKeys) := by
  rcases decideRowOutcome_cases decision email sent with ⟨_, _, _, ho⟩ | ⟨_, _, _, ho⟩ | ⟨_, ho⟩
  · rw [ho] at h
    cases h
  · rw [ho] at h
    cases h
  · rw [ho]
    rfl

end Decision

/-! ## The ledger of a row -/

/-- The addresses of a row. -/
def EmailRow.envelope (row : EmailRow) : Envelope :=
  ⟨row.fromAddress, row.toAddress, row.cc, row.bcc⟩

/-- Some stored entry is sent. -/
def EmailRow.delivered (row : EmailRow) : Bool := row.deliveryState.any anySent

/-- Some stored entry is pending. -/
def EmailRow.pending (row : EmailRow) : Bool := row.deliveryState.any anyRetry

section Ledger

variable (toLowerCase : Text → Text)

/-- The stored delivery state of a row, or that of a first attempt. -/
def EmailRow.ledger (row : EmailRow) : Ledger :=
  match row.deliveryState with
  | some state => ⟨state, true⟩
  | none => ⟨buildInitialState toLowerCase row.toAddress row.cc row.bcc, false⟩

/-- The attempt of a claim on the ledger. -/
def attemptOf (env : SendEnv) (email : ClaimedEmail) (settles : Bool) : Attempt where
  returnPath := (sendOptionsOf env email).returnPath
  messageId := (sendOptionsOf env email).messageId
  env := env.mailer
  isSuppressed := env.isSuppressed
  droppedAt := env.droppedAt
  settles := settles

variable {toLowerCase} {env : SendEnv} {email : ClaimedEmail} {result : SendMailResult}

theorem options_attemptOf (settles : Bool) :
    (attemptOf env email settles).options email.envelope
      ((email.ledger toLowerCase).existingState (attemptOf env email settles)) =
        sendOptionsOf env email := by
  unfold Attempt.options attemptOf Ledger.existingState EmailRow.ledger sendOptionsOf existingStateOf
  cases email.deliveryState <;> rfl

theorem fresh_ledger (row : EmailRow) : (row.ledger toLowerCase).Fresh toLowerCase row.envelope := by
  unfold EmailRow.ledger
  cases row.deliveryState with
  | none => exact fun _ => rfl
  | some state => exact fun h => (by cases h)

/-- The state the mailer starts with, from the ledger. -/
theorem startState_ledger (settles : Bool) :
    startState toLowerCase (sendOptionsOf env email) env.mailer =
      run (applyOp toLowerCase) (email.ledger toLowerCase).state
        (startOps toLowerCase email.envelope (email.ledger toLowerCase).stored
          (attemptOf env email settles)) := by
  have hfresh : (email.ledger toLowerCase).Fresh toLowerCase email.envelope :=
    fresh_ledger email.toEmailRow
  have hstart := startState_eq (a := attemptOf env email settles) hfresh
  rw [options_attemptOf] at hstart
  exact hstart

/-- The mailer called for a claim, from the state it starts with. -/
theorem sendMail_ledger (h : sendMail toLowerCase (sendOptionsOf env email) env.mailer = .ok result) :
    result.deliveryState =
        run (applyOp toLowerCase) (startState toLowerCase (sendOptionsOf env email) env.mailer)
          (recordOps toLowerCase ((attemptOf env email false).options email.envelope none) env.mailer
            (startState toLowerCase (sendOptionsOf env email) env.mailer)) ∧
      (sentAttemptOf env email result).deferredKeys =
        deferredOps toLowerCase ((attemptOf env email false).options email.envelope none) env.mailer
          (startState toLowerCase (sendOptionsOf env email) env.mailer) := by
  have hok : sendMail toLowerCase ((attemptOf env email false).options email.envelope
      ((email.ledger toLowerCase).existingState (attemptOf env email false)))
      (attemptOf env email false).env = .ok result := by
    rw [options_attemptOf]
    exact h
  rw [startState_ledger false]
  exact sendMail_ok (fresh_ledger email.toEmailRow) hok

/-- The state a saved outcome stores. -/
theorem deliveryState_decideRowOutcome (decision : DecisionEnv) (email : ClaimedEmail)
    (sent : SentAttempt) :
    (decideRowOutcome decision email sent).values.deliveryState =
      some (if (decideRowOutcome decision email sent).isTerminal then
        finalStateOf sent.deliveryState sent.deferredKeys else sent.deliveryState) := by
  rcases decideRowOutcome_cases decision email sent with ⟨_, _, _, ho⟩ | ⟨_, _, _, ho⟩ | ⟨_, ho⟩ <;>
    rw [ho] <;> rfl

/-- **An attempt on the ledger.** The row a saved outcome leads to holds the ledger after the
attempt. -/
theorem ledger_of_saved
    (h : sendMail toLowerCase (sendOptionsOf env email) env.mailer = .ok result) {row : EmailRow}
    {outcome : RowOutcome}
    (ho : outcome = decideRowOutcome env.decision email (sentAttemptOf env email result))
    (hrow : row.deliveryState = outcome.values.deliveryState.map jsonb) :
    row.ledger toLowerCase = attemptStep toLowerCase email.envelope (email.ledger toLowerCase)
      (attemptOf env email outcome.isTerminal) := by
  obtain ⟨hstate, hdef⟩ := sendMail_ledger h
  have hstored : outcome.values.deliveryState = some (if outcome.isTerminal then
      finalStateOf result.deliveryState (sentAttemptOf env email result).deferredKeys
        else result.deliveryState) := by
    rw [ho]
    exact deliveryState_decideRowOutcome env.decision email (sentAttemptOf env email result)
  rw [hstored, hdef, hstate, startState_ledger outcome.isTerminal] at hrow
  unfold EmailRow.ledger
  rw [hrow]
  unfold attemptStep attemptOps
  dsimp only
  rw [run_concat, run_append, run_append]
  cases outcome.isTerminal <;> rfl

/-- An entry found settled is left alone by the mailer. -/
theorem get?_sendMail_of_settled {key : Text} {group : DeliveryGroup}
    (h : sendMail toLowerCase (sendOptionsOf env email) env.mailer = .ok result)
    (hr : Ready toLowerCase (email.ledger toLowerCase))
    (hg : (email.ledger toLowerCase).state.get? key = some group) (hs : group.status ≠ .retry) :
    result.deliveryState.get? key = some group := by
  rw [(sendMail_ledger h).1, startState_ledger false]
  have hkeep : ∀ {state : DeliveryState} {ops : List StateOp}, state.get? key = some group →
      Along (applyOp toLowerCase) Spares state ops →
        (run (applyOp toLowerCase) state ops).get? key = some group :=
    invariant (fun s : DeliveryState => s.get? key = some group)
      (fun _ _ hg hsp => get?_applyOp_of_settled hsp hg hs)
  exact hkeep (hkeep hg (along_spares_startOps hr).1) along_spares_recordOps

/-- What was delivered stays delivered in the attempt. -/
theorem anySent_sendMail (h : sendMail toLowerCase (sendOptionsOf env email) env.mailer = .ok result)
    (hr : Ready toLowerCase (email.ledger toLowerCase)) (hd : email.delivered = true) :
    anySent result.deliveryState = true := by
  unfold EmailRow.delivered at hd
  cases hstate : email.deliveryState with
  | none =>
    rw [hstate] at hd
    cases hd
  | some state =>
    rw [hstate, Option.any_some] at hd
    obtain ⟨key, group, hg, hs⟩ := anySent_iff.mp hd
    have hg' : (email.ledger toLowerCase).state.get? key = some group := by
      unfold EmailRow.ledger
      rw [hstate]
      exact hg
    exact anySent_iff.mpr ⟨key, group, get?_sendMail_of_settled h hr hg' (by rw [hs]; decide), hs⟩

/-- The statuses before the attempt are those of the entries. -/
theorem rows_priorStatusesOf (state : DeliveryState) :
    (priorStatusesOf (some state)).rows = state.rows.map fun e => (e.1, e.2.status) := by
  refine Table.ofEntries_rows ?_
  show ((state.rows.map fun e => (e.1, e.2.status)).map Prod.fst).Nodup
  rw [List.map_map]
  exact state.unique

/-- The decision sees a delivery before the attempt exactly when one is stored. -/
theorem anySentBefore_sentAttemptOf :
    anySentBefore (sentAttemptOf env email result).priorStatuses = email.delivered := by
  show anySentBefore (priorStatusesOf (existingStateOf env email)) = email.delivered
  unfold existingStateOf EmailRow.delivered
  cases email.deliveryState with
  | none => rfl
  | some state =>
    rw [Option.map_some, Option.any_some,
      ← anySent_dropSuppressedRecipients env.isSuppressed env.droppedAt]
    unfold anySentBefore anySent
    rw [rows_priorStatusesOf, List.any_map]
    rfl

/-! ## The row a claim releases -/

/-- The row after a claim that holds it released it with the values. -/
structure Released (values : RowValues) (row row' : EmailRow) : Prop where
  status : row'.status = values.status
  attempts : row'.attempts = values.attempts.getD row.attempts
  lastError : row'.lastError = values.lastError.getD row.lastError
  deliveryState : row'.deliveryState = (values.deliveryState.map jsonb <|> row.deliveryState)
  addresses : row'.envelope = row.envelope

theorem released_of_held {workerId : Text} {claim : Claim} {values : RowValues} {now appNow : Time}
    {row : EmailRow} (h : heldBy workerId claim row = true) :
    Released values row (releaseRow workerId claim values now appNow row).1 := by
  unfold releaseRow
  rw [if_pos h]
  exact ⟨rfl, rfl, rfl, rfl, rfl⟩

theorem ledger_congr {row row' : EmailRow} (hd : row'.deliveryState = row.deliveryState)
    (ha : row'.envelope = row.envelope) : row'.ledger toLowerCase = row.ledger toLowerCase := by
  obtain ⟨_, hto, hcc, hbcc⟩ := Envelope.mk.inj ha
  unfold EmailRow.ledger
  rw [hd, hto, hcc, hbcc]

/-- The state a recorded attempt stores. -/
theorem deliveryState_of_released {decision : DecisionEnv} {sent : SentAttempt} {row row' : EmailRow}
    (h : Released (decideRowOutcome decision email sent).values row row') :
    row'.deliveryState = some (jsonb
      (if (decideRowOutcome decision email sent).isTerminal then
        finalStateOf sent.deliveryState sent.deferredKeys else sent.deliveryState)) := by
  rw [h.deliveryState, deliveryState_decideRowOutcome]
  rfl

theorem delivered_of_released {decision : DecisionEnv} {sent : SentAttempt} {row row' : EmailRow}
    (h : Released (decideRowOutcome decision email sent).values row row') :
    row'.delivered = anySent sent.deliveryState := by
  unfold EmailRow.delivered
  rw [deliveryState_of_released h, Option.any_some, anySent_jsonb]
  split_ifs
  · exact anySent_finalStateOf _
  · rfl

end Ledger

end BunMail.Emails
