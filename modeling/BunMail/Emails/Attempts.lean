import BunMail.Emails.Turns

/-!
# The attempts of a row, one after the other

Each claim that reaches the mailer and whose outcome is saved is an attempt, and the state it stores
is the state the next one starts from.  `email.sent` is raised by the first attempt after which
something is sent and by no other, although each attempt decides it from its own prior statuses; the
status, the delay and the deferrals of an outcome are read off the attempt's own entries.
-/

namespace BunMail.Emails

open Run

/-! ## Deferrals -/

section Deferral

variable {toLowerCase : Text → Text} {options : SendMailOptions} {env : MailerEnv}
  {state : DeliveryState}

/-- A mailer that defers every pending entry records nothing. -/
theorem recordOps_of_deferred
    (h : ∀ key ∈ pendingKeys state, key ∈ deferredOps toLowerCase options env state) :
    recordOps toLowerCase options env state = [] := by
  have htargets : unsentKeys toLowerCase env (pendingByDomain state) ++
      ((allOutcomes env (planSessions toLowerCase options env state)).filter
        (·.deferredMs.isNone)).map RoutedOutcome.key = [] := by
    rw [List.eq_nil_iff_forall_not_mem]
    intro key hkey
    -- the key would be recorded and deferred, but it is pending once only
    have hle := count_targets_le toLowerCase state options env key
    have hone := List.nodup_iff_count_le_one.mp (nodup_pendingKeys state) key
    have hsplit := (List.filter_append_perm (fun o : RoutedOutcome => o.deferredMs.isNone)
      (allOutcomes env (planSessions toLowerCase options env state))).map RoutedOutcome.key
    have hcount := hsplit.count_eq key
    rw [keys_allOutcomes, List.map_append, List.count_append] at hcount
    rw [List.count_append] at hle
    have hpos := List.count_pos_iff.mpr hkey
    rw [List.count_append] at hpos
    have hpend : key ∈ pendingKeys state := List.count_pos_iff.mp (by omega)
    have hdef := List.count_pos_iff.mpr (h key hpend)
    unfold deferredOps at hdef
    simp only [Option.not_isNone] at hcount
    omega
  have hmap : (recordOps toLowerCase options env state).map StateOp.target = _ := targets_recordOps
  rw [htargets] at hmap
  exact List.map_eq_nil_iff.mp hmap

/-- A pass makes no entry settled. -/
theorem get?_of_settled_pass {pieces : Text × DeliveryGroup → List (Text × DeliveryGroup)}
    (hr : ∀ e, Refiles e (pieces e)) {key : Text} {group : DeliveryGroup}
    (hg : (Table.ofEntries (state.rows.flatMap pieces)).get? key = some group)
    (hs : group.status ≠ .retry) : state.get? key = some group := by
  obtain ⟨e, he, hp⟩ := List.mem_flatMap.mp (Table.mem_ofEntries (Table.get?_eq_some_iff.mp hg))
  have hes : e.2.status ≠ .retry := (hr e).status _ hp ▸ hs
  rw [(hr e).kept hes, List.mem_singleton] at hp
  rw [Table.get?_eq_some_iff, hp]
  exact he

end Deferral

section Attempt

variable {toLowerCase : Text → Text} {env : SendEnv} {email : ClaimedEmail} {result : SendMailResult}

/-- What is settled when the mailer starts was settled before the attempt, under the same key. -/
theorem priorStatus_of_settled {key : Text} {group : DeliveryGroup}
    (hg : (startState toLowerCase (sendOptionsOf env email) env.mailer).get? key = some group)
    (hs : group.status ≠ .retry) :
    (priorStatusesOf (existingStateOf env email)).get? key = some group.status := by
  have hprior : (priorState toLowerCase (sendOptionsOf env email)).get? key = some group := by
    unfold startState at hg
    cases hp : returnPathsOf toLowerCase (sendOptionsOf env email) env.mailer with
    | none =>
      rw [hp] at hg
      exact hg
    | some paths =>
      rw [hp] at hg
      exact get?_of_settled_pass (fun _ => refiles_recipientPieces) hg hs
  unfold priorState at hprior
  rw [show (sendOptionsOf env email).existingState = existingStateOf env email from rfl] at hprior
  cases hex : existingStateOf env email with
  | none =>
    rw [hex] at hprior
    exact absurd (get?_buildInitialState hprior).1 hs
  | some state =>
    rw [hex] at hprior
    have hstate : state.get? key = some group :=
      get?_of_settled_pass (fun _ => refiles_domainPieces) hprior hs
    rw [Table.get?_eq_some_iff, rows_priorStatusesOf]
    exact List.mem_map.mpr ⟨(key, group), Table.get?_eq_some_iff.mp hstate, rfl⟩

/-- Every pending entry the mailer starts with is deferred. -/
def AllDeferred (toLowerCase : Text → Text) (env : SendEnv) (email : ClaimedEmail)
    (sent : SentAttempt) : Prop :=
  ∀ e ∈ (startState toLowerCase (sendOptionsOf env email) env.mailer).rows,
    e.2.status = .retry → e.1 ∈ sent.deferredKeys

instance (toLowerCase : Text → Text) (env : SendEnv) (email : ClaimedEmail) (sent : SentAttempt) :
    Decidable (AllDeferred toLowerCase env email sent) :=
  inferInstanceAs (Decidable (∀ e ∈ _, _))

/-- **A pure deferral.** The mailer leaves the state it starts with, and nothing was attempted. -/
theorem pureDeferral (h : sendMail toLowerCase (sendOptionsOf env email) env.mailer = .ok result)
    (ha : AllDeferred toLowerCase env email (sentAttemptOf env email result)) :
    result.deliveryState = startState toLowerCase (sendOptionsOf env email) env.mailer ∧
      realRetry (sentAttemptOf env email result) = false ∧
      attempted (sentAttemptOf env email result) = false := by
  obtain ⟨hstate, hdef⟩ := sendMail_ledger h
  have hnil : recordOps toLowerCase ((attemptOf env email false).options email.envelope none) env.mailer
      (startState toLowerCase (sendOptionsOf env email) env.mailer) = [] := by
    apply recordOps_of_deferred
    intro key hkey
    obtain ⟨group, hg, hs, _⟩ := mem_pendingKeys.mp hkey
    rw [← hdef]
    exact ha (key, group) (Table.get?_eq_some_iff.mp hg) hs
  rw [hnil, run_nil] at hstate
  have hreal : realRetry (sentAttemptOf env email result) = false := by
    unfold realRetry
    rw [List.any_eq_false]
    intro e hm
    have hm' : e ∈ result.deliveryState.rows := hm
    rw [hstate] at hm'
    simpa using ha e hm'
  refine ⟨hstate, hreal, ?_⟩
  unfold attempted
  rw [hreal, Bool.false_or, List.any_eq_false]
  rintro ⟨key, group⟩ hm
  have hg : result.deliveryState.get? key = some group := Table.get?_eq_some_iff.mpr hm
  rw [hstate] at hg
  by_cases hs : group.status = .retry
  · simp [hs]
  · have hprior : (sentAttemptOf env email result).priorStatuses.get? key = some group.status :=
      priorStatus_of_settled hg hs
    simp [hprior]

/-! ## Delays -/

variable {decision : DecisionEnv} {sent : SentAttempt} {delay : ℕ}

/-- A delay that is scheduled stays in the retry window, and is no shorter than the backoff of an
entry that failed for now. -/
theorem retryDelayMs_some (h : retryDelayMs decision email sent = some delay) :
    email.ageMs + delay ≤ decision.retryMaxAgeMs ∧
      (realRetry sent = true → ∃ backoff,
        nextRetryDelayMs email.attempts email.ageMs decision.retryMaxAgeMs = some backoff ∧
          backoff ≤ delay) := by
  obtain ⟨hdelay, hwindow⟩ := Option.filter_eq_some_iff.mp h
  rw [Bool.and_eq_true, decide_eq_true_eq] at hwindow
  refine ⟨hwindow.2, fun hr => ?_⟩
  unfold outcomeDelayMs at hdelay
  rw [if_pos hr] at hdelay
  cases hb : nextRetryDelayMs email.attempts email.ageMs decision.retryMaxAgeMs with
  | none =>
    rw [hb] at hdelay
    cases hdelay
  | some backoff =>
    rw [hb] at hdelay
    refine ⟨backoff, rfl, ?_⟩
    cases hdelay
    exact le_max_left backoff _

/-- An outcome that does not end the row schedules its delay. -/
theorem nextAttemptInMs_of_isTerminal_eq_false
    (h : (decideRowOutcome decision email sent).isTerminal = false) :
    ∃ delay, (decideRowOutcome decision email sent).values.nextAttemptInMs = some delay ∧
      retryDelayMs decision email sent = some delay := by
  rcases decideRowOutcome_cases decision email sent with
    ⟨delay, hd, _, ho⟩ | ⟨delay, hd, _, ho⟩ | ⟨_, ho⟩
  · rw [ho]
    exact ⟨delay, rfl, hd⟩
  · rw [ho]
    exact ⟨delay, rfl, hd⟩
  · rw [ho] at h
    cases h

/-- The delay of an attempt that only deferred entries. -/
theorem retryDelayMs_of_deferred {deferred : Deferred} (hr : realRetry sent = false)
    (hd : sent.deferred = some deferred) (hk : deferred.keys ≠ [])
    (hp : anyRetry sent.deliveryState = true) :
    retryDelayMs decision email sent =
      if email.ageMs + deferralDelayMs deferred.waitMs decision.random ≤ decision.retryMaxAgeMs then
        some (deferralDelayMs deferred.waitMs decision.random) else none := by
  have hout : outcomeDelayMs decision email sent =
      some (deferralDelayMs deferred.waitMs decision.random) := by
    unfold outcomeDelayMs
    rw [if_neg (by rw [hr]; decide), hd]
    dsimp only
    rw [if_pos hk]
    exact congrArg some (max_eq_right (Nat.zero_le _))
  unfold retryDelayMs
  rw [hout]
  simp only [hp, Bool.true_and, Option.filter_some, decide_eq_true_eq]

/-- **A pure deferral on its row.** In the retry window the outcome is a deferral until the next
token; past it the row ends. -/
theorem outcome_of_pureDeferral (decision : DecisionEnv)
    (h : sendMail toLowerCase (sendOptionsOf env email) env.mailer = .ok result)
    (ha : AllDeferred toLowerCase env email (sentAttemptOf env email result))
    (hp : anyRetry (startState toLowerCase (sendOptionsOf env email) env.mailer) = true) :
    ∃ deferred, result.deferred = some deferred ∧
      decideRowOutcome decision email (sentAttemptOf env email result) =
        if email.ageMs + deferralDelayMs deferred.waitMs decision.random ≤
            decision.retryMaxAgeMs then
          deferredOutcome email (sentAttemptOf env email result)
            (deferralDelayMs deferred.waitMs decision.random)
        else terminalOutcome decision email (sentAttemptOf env email result) := by
  obtain ⟨hstate, hreal, hatt⟩ := pureDeferral h ha
  obtain ⟨key, group, hg, hs⟩ := anyRetry_iff.mp hp
  have hkey : key ∈ (sentAttemptOf env email result).deferredKeys :=
    ha (key, group) (Table.get?_eq_some_iff.mp hg) hs
  have hdel : anyRetry (sentAttemptOf env email result).deliveryState = true := by
    show anyRetry result.deliveryState = true
    rw [hstate]
    exact hp
  unfold SentAttempt.deferredKeys at hkey
  cases hd : (sentAttemptOf env email result).deferred with
  | none =>
    rw [hd] at hkey
    cases hkey
  | some deferred =>
    rw [hd] at hkey
    refine ⟨deferred, hd, ?_⟩
    unfold decideRowOutcome
    rw [retryDelayMs_of_deferred hreal hd (List.ne_nil_of_mem hkey) hdel, hatt]
    by_cases hw : email.ageMs + deferralDelayMs deferred.waitMs decision.random ≤
        decision.retryMaxAgeMs
    · rw [if_pos hw, if_pos hw]
      rfl
    · rw [if_neg hw, if_neg hw]

end Attempt

/-! ## What every saved attempt decides -/

section Saved

variable {toLowerCase : Text → Text} {db : QueueDb}

/-- The deferral of an attempt stays in the retry window. -/
def SavedAttempt.defersInWindow (x : SavedAttempt) : Prop :=
  ∀ deferred ∈ x.sent.deferred, x.email.ageMs + deferralDelayMs deferred.waitMs x.env.decision.random ≤
    x.env.decision.retryMaxAgeMs

variable (toLowerCase) in
/-- What holds of an attempt by itself. -/
structure SavedAttempt.Sound (x : SavedAttempt) : Prop where
  /-- `email.sent` is in the outcome at most once. -/
  once : x.outcome.events.countP (·.isSent) ≤ 1
  /-- The final status is that of the stored entries. -/
  status : x.after.status.final = true → ∃ state, x.after.deliveryState = some state ∧
    (x.after.status = .sent ↔ anySent state = true) ∧
    (x.after.status = .bounced ↔ anySent state = false ∧ anyHardBounce state = true) ∧
    (x.after.status = .failed ↔ anySent state = false ∧ anyHardBounce state = false)
  /-- What is scheduled stays in the retry window, and waits for the backoff of every entry that
  failed for now. -/
  delay : x.after.status.final = false → ∃ delay, x.outcome.values.nextAttemptInMs = some delay ∧
    x.email.ageMs + delay ≤ x.env.decision.retryMaxAgeMs ∧
    ∀ key group, x.sent.deliveryState.get? key = some group → group.status = .retry →
      key ∉ x.sent.deferredKeys → ∃ backoff,
        nextRetryDelayMs x.email.attempts x.email.ageMs x.env.decision.retryMaxAgeMs = some backoff ∧
          backoff ≤ delay
  /-- A pure deferral takes the attempt back and keeps the error and the entries the mailer started
  with; past the retry window it ends the row. -/
  deferral : anyRetry (startState toLowerCase (sendOptionsOf x.env x.email) x.env.mailer) = true →
    AllDeferred toLowerCase x.env x.email x.sent →
      (x.defersInWindow → x.after.status = .queued ∧ x.after.attempts = x.before.attempts ∧
        x.after.lastError = x.before.lastError ∧ x.outcome.events = [] ∧
        x.after.deliveryState =
          some (jsonb (startState toLowerCase (sendOptionsOf x.env x.email) x.env.mailer))) ∧
      (¬ x.defersInWindow → x.after.status.final = true)

theorem anyHardBounce_jsonb (state : DeliveryState) :
    anyHardBounce (jsonb state) = anyHardBounce state := by
  unfold anyHardBounce jsonb
  exact (Table.perm_sort state jsonbOrder).any_eq

variable {x : SavedAttempt} {result : SendMailResult}

/-- A saved attempt ends the row exactly when its outcome is terminal. -/
theorem final_after (h : Saved toLowerCase x result) :
    x.after.status.final = x.outcome.isTerminal := by
  rw [h.released.status]
  cases ht : x.outcome.isTerminal with
  | false =>
    rw [show x.outcome.values.status = .queued from (of_isTerminal_eq_false ht).1]
    rfl
  | true =>
    rw [show x.outcome.values.status = _ from of_isTerminal ht]
    unfold finalStatusOf
    split_ifs <;> rfl

/-- The final status is that of the entries. -/
theorem status_after (h : Saved toLowerCase x result) (hf : x.after.status.final = true) :
    ∃ state, x.after.deliveryState = some state ∧ x.after.status = finalStatusOf state := by
  have ht : x.outcome.isTerminal = true := (final_after h).symm.trans hf
  refine ⟨jsonb (finalStateOf x.sent.deliveryState x.sent.deferredKeys), ?_, ?_⟩
  · rw [deliveryState_of_released h.released]
    exact congrArg (fun b : Bool => some (jsonb (if b = true then _ else _))) ht
  · rw [h.released.status, show x.outcome.values.status = _ from of_isTerminal ht]
    unfold finalStatusOf
    rw [anySent_jsonb, anyHardBounce_jsonb]

theorem finalStatusOf_iff (state : DeliveryState) :
    (finalStatusOf state = .sent ↔ anySent state = true) ∧
    (finalStatusOf state = .bounced ↔ anySent state = false ∧ anyHardBounce state = true) ∧
    (finalStatusOf state = .failed ↔ anySent state = false ∧ anyHardBounce state = false) := by
  unfold finalStatusOf
  cases anySent state <;> cases anyHardBounce state <;> decide

theorem countP_isSent_le_one (decision : DecisionEnv) (email : ClaimedEmail) (sent : SentAttempt) :
    (decideRowOutcome decision email sent).events.countP (·.isSent) ≤ 1 := by
  rcases decideRowOutcome_cases decision email sent with ⟨_, _, _, ho⟩ | ⟨_, _, _, ho⟩ | ⟨_, ho⟩
  · rw [ho]
    exact Nat.zero_le 1
  · rw [ho]
    unfold retryOutcome RowOutcome.events
    dsimp only
    split_ifs <;> simp [sentEvent, WebhookEvent.isSent]
  · rw [ho]
    unfold terminalOutcome RowOutcome.events
    dsimp only
    rw [List.countP_append]
    split_ifs <;> simp [sentEvent, WebhookEvent.isSent]

/-- **One attempt.** -/
theorem sound_of_saved (h : Saved toLowerCase x result) : x.Sound toLowerCase where
  once := countP_isSent_le_one x.env.decision x.email x.sent
  status hf := by
    obtain ⟨state, hstate, hstatus⟩ := status_after h hf
    rw [hstatus]
    exact ⟨state, hstate, finalStatusOf_iff state⟩
  delay hf := by
    have ht : x.outcome.isTerminal = false := (final_after h).symm.trans hf
    obtain ⟨delay, hnext, hdelay⟩ := nextAttemptInMs_of_isTerminal_eq_false ht
    obtain ⟨hwindow, hback⟩ := retryDelayMs_some hdelay
    refine ⟨delay, hnext, hwindow, fun key group hg hs hk => hback ?_⟩
    unfold realRetry
    rw [List.any_eq_true]
    exact ⟨(key, group), Table.get?_eq_some_iff.mp hg, by simp [hs, hk]⟩
  deferral hp ha := by
    rw [h.sent] at ha
    obtain ⟨hstate, _, _⟩ := pureDeferral h.mailed ha
    obtain ⟨deferred, hd, ho⟩ := outcome_of_pureDeferral x.env.decision h.mailed ha hp
    have hout : x.outcome = _ := (congrArg (decideRowOutcome x.env.decision x.email) h.sent).trans ho
    have hwindow : x.defersInWindow ↔ x.email.ageMs + deferralDelayMs deferred.waitMs
        x.env.decision.random ≤ x.env.decision.retryMaxAgeMs := by
      unfold SavedAttempt.defersInWindow
      rw [h.sent, show (sentAttemptOf x.env x.email result).deferred = some deferred from hd]
      exact ⟨fun hw => hw deferred rfl, fun hw d hd' => Option.some.inj hd' ▸ hw⟩
    constructor
    · intro hw
      rw [if_pos (hwindow.mp hw)] at hout
      have hrel := h.released
      rw [hout] at hrel ⊢
      refine ⟨hrel.status, ?_, hrel.lastError.trans h.lastError, rfl, ?_⟩
      · rw [hrel.attempts]
        show x.email.attempts - 1 = x.before.attempts
        rw [h.attempts]
        rfl
      · rw [hrel.deliveryState, ← hstate]
        rfl
    · intro hw
      rw [if_neg (hwindow.not.mp hw)] at hout
      rw [final_after h, hout]
      rfl

/-! ## The first delivery -/

variable {turns : List ClaimTurn}

/-- An attempt keeps the ledger ready, delivers at least what was delivered, and raises `email.sent`
exactly for the first delivery. -/
theorem delivery_of_saved (h : Saved toLowerCase x result)
    (hr : Ready toLowerCase (x.before.ledger toLowerCase)) :
    Ready toLowerCase (x.after.ledger toLowerCase) ∧
      x.after.delivered = anySent x.sent.deliveryState ∧
      (x.before.delivered = true → anySent x.sent.deliveryState = true) ∧
      (x.outcome.events.any (·.isSent) = true ↔
        anySent x.sent.deliveryState = true ∧ x.before.delivered = false) := by
  have hledger : x.email.ledger toLowerCase = x.before.ledger toLowerCase :=
    ledger_congr h.deliveryState h.addresses
  have hdelivered : x.email.delivered = x.before.delivered := by
    unfold EmailRow.delivered
    rw [h.deliveryState]
  rw [← hledger] at hr
  refine ⟨?_, delivered_of_released h.released, fun hb => ?_, ?_⟩
  · have hrow : x.after.deliveryState = x.outcome.values.deliveryState.map jsonb := by
      rw [deliveryState_of_released h.released]
      unfold SavedAttempt.outcome
      rw [deliveryState_decideRowOutcome]
      rfl
    rw [ledger_of_saved h.mailed (congrArg _ h.sent) hrow]
    exact ready_attemptStep hr
  · rw [h.sent]
    exact anySent_sendMail h.mailed hr (hdelivered.trans hb)
  · unfold SavedAttempt.outcome
    rw [any_isSent_events_iff, h.sent, anySentBefore_sentAttemptOf, hdelivered]

/-- **Run.** `email.sent` is raised by the first attempt after which an entry is sent, and by no
other. -/
theorem isSent_iff_first (hid : db.row.id ∈ db.list.emails)
    (hr : Ready toLowerCase (db.row.ledger toLowerCase)) {earlier later : List SavedAttempt}
    (hx : savedAttempts toLowerCase db turns = earlier ++ x :: later) :
    x.outcome.events.any (·.isSent) = true ↔ anySent x.sent.deliveryState = true ∧
      db.row.delivered = false ∧ ∀ y ∈ earlier, anySent y.sent.deliveryState = false := by
  induction turns generalizing db earlier with
  | nil => cases earlier <;> cases hx
  | cons turn turns ih =>
    obtain ⟨hid', ⟨hnone, hd, ha⟩ | ⟨y, result, hsome, hbefore, hafter, hsaved⟩⟩ :=
      turn_spec toLowerCase hid turn
    · rw [savedAttempts, hnone] at hx
      have hdel : (runTurn toLowerCase db turn).row.delivered = db.row.delivered := by
        unfold EmailRow.delivered
        rw [hd]
      rw [← hdel]
      exact ih hid' (ledger_congr hd ha ▸ hr) hx
    · rw [savedAttempts, hsome] at hx
      obtain ⟨hready, hdel, hmono, hiff⟩ := delivery_of_saved hsaved (hbefore ▸ hr)
      rw [hafter] at hready hdel
      rw [hbefore] at hmono hiff
      cases earlier with
      | nil =>
        obtain ⟨rfl, _⟩ := List.cons.inj hx
        rw [hiff]
        simp
      | cons z earlier =>
        obtain ⟨rfl, hx'⟩ := List.cons.inj hx
        rw [ih hid' hready hx', hdel, List.forall_mem_cons]
        -- nothing was delivered before an attempt that leaves nothing delivered
        have hfirst : anySent y.sent.deliveryState = false → db.row.delivered = false := by
          intro hz
          rw [← Bool.not_eq_true] at hz ⊢
          exact fun hb => hz (hmono hb)
        exact and_congr_right fun _ => ⟨fun ⟨hz, he⟩ => ⟨hfirst hz, hz, he⟩, fun ⟨_, h⟩ => h⟩

theorem sound_of_mem (hid : db.row.id ∈ db.list.emails)
    (hx : x ∈ savedAttempts toLowerCase db turns) : x.Sound toLowerCase := by
  induction turns generalizing db with
  | nil => cases hx
  | cons turn turns ih =>
    obtain ⟨hid', ⟨hnone, _⟩ | ⟨y, result, hsome, _, _, hsaved⟩⟩ :=
      turn_spec toLowerCase hid turn
    · rw [savedAttempts, hnone] at hx
      exact ih hid' hx
    · rw [savedAttempts, hsome] at hx
      rcases List.mem_cons.mp hx with rfl | hx
      · exact sound_of_saved hsaved
      · exact ih hid' hx

variable (toLowerCase) in
/-- `email.sent` is raised by the first attempt after which an entry is sent and by no other, and by
none when something was sent before them all. -/
def FirstDelivery (db : QueueDb) (turns : List ClaimTurn) : Prop :=
  ∀ earlier x later, savedAttempts toLowerCase db turns = earlier ++ x :: later →
    (x.outcome.events.any (·.isSent) = true ↔ anySent x.sent.deliveryState = true ∧
      db.row.delivered = false ∧ ∀ y ∈ earlier, anySent y.sent.deliveryState = false)

/-- **Attempts.** Over any sequence of claims of a row, new or with a state stored before the domain
column, `email.sent` is raised for the first delivery, and every saved attempt decides soundly. -/
theorem attempts_decide (hid : db.row.id ∈ db.list.emails)
    (ho : Origin toLowerCase db.row.envelope (db.row.ledger toLowerCase)) :
    FirstDelivery toLowerCase db turns ∧
      ∀ x ∈ savedAttempts toLowerCase db turns, x.Sound toLowerCase :=
  ⟨fun _ _ _ hx => isSent_iff_first hid (ready_of_origin ho) hx, fun _ hx => sound_of_mem hid hx⟩

end Saved

/-! ## A recipient suppressed before a deferral -/

open Queue

/-- An email to two recipients of one domain. -/
def twoRecipients : EmailRow := { oneRecipient with toAddress := "a@x.org, b@x.org" }

/-- A claim by a worker at an instant whose writes commit. -/
def turnAt (now : Time) (env : SendEnv) : ClaimTurn where
  workerId := "w"
  claimedAt := now
  claimedAppAt := now
  env := env
  fate _ := .committed
  tx _ := ⟨now, now, id⟩

/-- The MX asks to try again later. -/
def tryLater : SendEnv :=
  working (answering fun _ => .threw (.error
    { message := "Message failed", responseCode := some 451
      response := some "451 4.3.0 Try again later" }))

/-- The rate budget grants nothing for a minute. -/
def overBudget : MailerEnv :=
  { answering fun _ => .resolved [] [] with
    hostInputs := fun _ _ =>
      ⟨.ok ["192.0.2.1"], fun _ => ⟨some ⟨0, 60000⟩, fun _ => ⟨false, .resolved [] [], none⟩, 0⟩⟩ }

/-- One recipient was suppressed since, and the budget is used up. -/
def suppressedAndOverBudget : SendEnv :=
  { working overBudget with isSuppressed := fun r => r = "b@x.org".toList }

/-- A failed attempt, a deferral and a delivery. -/
theorem attempts_decide_deferred :
    FirstDelivery id (newDb twoRecipients)
        [turnAt 0 tryLater, turnAt 300001 (working overBudget),
          turnAt 400000 (working (answering fun _ => .resolved [] []))] ∧
      ∀ x ∈ savedAttempts id (newDb twoRecipients)
        [turnAt 0 tryLater, turnAt 300001 (working overBudget),
          turnAt 400000 (working (answering fun _ => .resolved [] []))], x.Sound id :=
  attempts_decide (by decide) (.inl rfl)

/-- Every pending entry of the second attempt is deferred, in the retry window, and yet the entry
loses a recipient. -/
theorem deferral_drops_suppressed :
    ∃ x ∈ savedAttempts id (newDb twoRecipients)
        [turnAt 0 tryLater, turnAt 300001 suppressedAndOverBudget],
      anyRetry (startState id (sendOptionsOf x.env x.email) x.env.mailer) = true ∧
        AllDeferred id x.env x.email x.sent ∧ x.after.deliveryState ≠ x.before.deliveryState := by
  decide +kernel

end BunMail.Emails
