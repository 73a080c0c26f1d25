import BunMail.Emails.QueueSend

/-!
# Recording the outcome of an attempt

The inline bounces of an attempt and the release of its row are one transaction: each bounce is
suppressed and announced, then the row is released and its events are enqueued if the claim still
holds the row.  A transaction that fails is tried again, twice with its events and then once
without them; it may fail after its commit, when only the acknowledgement is lost.
-/

namespace BunMail.Emails

open SuppressionList (BounceType addFromBounce SOFT_BOUNCE_WINDOW_MS)

/-! ## Inline bounces -/

/-- A recipient's inline bounce, suppressed and announced with the outcome. -/
structure InlineBounce where
  recipient : Text
  bounceType : BounceType
  code : Text
  diagnostic : Text
  deriving DecidableEq

/-- `MAILBOX_FULL`. -/
def MAILBOX_FULL : Text := "4.2.2"

/-- One bounce for each recipient of an entry. -/
def groupBounces (bounceType : BounceType) (code : Text) (group : DeliveryGroup) :
    List InlineBounce :=
  group.recipients.map fun recipient =>
    ⟨recipient, bounceType, code, group.lastError.getD "(no diagnostic)"⟩

/-- The recipients of the entries that failed for good in this attempt by a hard reply. -/
def hardBounces (sent : SentAttempt) : List InlineBounce :=
  sent.deliveryState.rows.flatMap fun (key, group) =>
    if group.status ≠ .failed ∨ sent.priorStatuses.get? key = some .failed then []
    else
      match failureOf group with
      | some ⟨.hard, code⟩ => groupBounces .hard code group
      | _ => []

/-- The recipients whose mailbox stayed full until the retry window ran out. -/
def exhaustedSoftBounces (attemptState finalState : DeliveryState) : List InlineBounce :=
  attemptState.rows.flatMap fun (key, group) =>
    if group.status ≠ .retry ∨ (finalState.get? key).map DeliveryGroup.status ≠ some .failed ∨
        group.failureKind ≠ some .soft ∨ group.failureCode ≠ some MAILBOX_FULL then []
    else groupBounces .soft MAILBOX_FULL group

/-- The bounces of an attempt. -/
def bouncesOf (env : DecisionEnv) (email : ClaimedEmail) (sent : SentAttempt) : List InlineBounce :=
  hardBounces sent ++
    match decideRowOutcome env email sent with
    | .terminal _ _ _ finalState => exhaustedSoftBounces sent.deliveryState finalState
    | .deferred .. | .retry .. => []

/-! ## The transaction -/

/-- What an outcome writes to: the row, the suppression list and the webhook outbox. -/
structure QueueDb where
  row : EmailRow
  list : SuppressionList.Db
  outbox : List WebhookEvent

/-- The clocks of a transaction, and the ids of new suppressions. -/
structure TxEnv where
  now : Time
  appNow : Time
  newId : Text → Text

/-- Writes the row's outcome, and the events it raises if this claim still held the row; whether
it did. -/
def releaseRowWithEvents (workerId : Text) (claim : Claim) (values : RowValues)
    (events : List WebhookEvent) (tx : TxEnv) (db : QueueDb) : QueueDb × Bool :=
  match releaseRow workerId claim values tx.now tx.appNow db.row with
  | (row, true) => ({ db with row := row, outbox := db.outbox ++ events }, true)
  | (_, false) => (db, false)

section Record

variable (toLowerCase : Text → Text)

/-- Suppresses and announces one bounce. -/
def fileBounce (email : ClaimedEmail) (withEvents : Bool) (tx : TxEnv) (db : QueueDb)
    (bounce : InlineBounce) : Except String QueueDb := do
  let (list, result) ← addFromBounce toLowerCase db.list email.apiKeyId
    { email := bounce.recipient
      bounceType := bounce.bounceType
      diagnosticCode := some bounce.code
      sourceEmailId := some email.id
      expiresAt := if bounce.bounceType = .soft then some (tx.appNow + SOFT_BOUNCE_WINDOW_MS)
        else none }
    (tx.newId bounce.recipient) tx.appNow
  let event := WebhookEvent.emailBounced email.id email.toAddress bounce.recipient bounce.bounceType
    bounce.code bounce.diagnostic (result.suppression.map SuppressionList.Suppression.id) email.tags
  pure { db with list := list, outbox := db.outbox ++ if withEvents then [event] else [] }

/-- The outcome in one transaction, and whether the row was saved; without events it is the
degraded write. -/
def writeOutcome (workerId : Text) (env : DecisionEnv) (email : ClaimedEmail) (claim : Claim)
    (sent : SentAttempt) (withEvents : Bool) (tx : TxEnv) (db : QueueDb) :
    Except String (QueueDb × Bool) := do
  let db ← (bouncesOf env email sent).foldlM (fileBounce toLowerCase email withEvents tx) db
  let outcome := decideRowOutcome env email sent
  pure (releaseRowWithEvents workerId claim outcome.values
    (if withEvents then outcome.events else []) tx db)

/-- How a transaction ends: it commits, it commits but the acknowledgement is lost, or it is
rolled back. -/
inductive Fate
  | committed | ackLost | rolledBack
  deriving DecidableEq, Repr

/-- `[0, ...OUTCOME_RETRY_DELAYS_MS].length`: the writes with events, before the degraded one. -/
def OUTCOME_TRIES : ℕ := 3

/-- The writes from try `n` on, at most `left` of them, with nobody else writing in between. -/
def writesFrom (workerId : Text) (env : DecisionEnv) (email : ClaimedEmail) (claim : Claim)
    (sent : SentAttempt) (fate : ℕ → Fate) (tx : ℕ → TxEnv) (n : ℕ) : ℕ → QueueDb → QueueDb
  | 0, db => db
  | left + 1, db =>
    match fate n, writeOutcome toLowerCase workerId env email claim sent (n < OUTCOME_TRIES) (tx n) db with
    | .rolledBack, _ | _, .error _ =>
      writesFrom workerId env email claim sent fate tx (n + 1) left db
    | .committed, .ok p => p.1
    | .ackLost, .ok p => writesFrom workerId env email claim sent fate tx (n + 1) left p.1

/-- Records the outcome: the write with its events and its retries, then the degraded one. -/
def recordSendOutcome (workerId : Text) (env : DecisionEnv) (email : ClaimedEmail) (claim : Claim)
    (sent : SentAttempt) (fate : ℕ → Fate) (tx : ℕ → TxEnv) (db : QueueDb) : QueueDb :=
  writesFrom toLowerCase workerId env email claim sent fate tx 0 (OUTCOME_TRIES + 1) db

/-! ## What a transaction enqueues -/

variable {toLowerCase} {workerId : Text} {env : DecisionEnv} {email : ClaimedEmail} {claim : Claim}
  {values : RowValues} {events : List WebhookEvent} {sent : SentAttempt} {withEvents : Bool}
  {tx : TxEnv} {db : QueueDb}

/-- The recipient an event announces a bounce of. -/
def WebhookEvent.bounced? : WebhookEvent → Option Text
  | .emailBounced _ _ recipient .. => some recipient
  | .emailSent .. | .emailFailed .. => none

/-- The recipients whose bounce is announced. -/
def announced (events : List WebhookEvent) : List Text := events.filterMap WebhookEvent.bounced?

theorem releaseRowWithEvents_of_held (h : heldBy workerId claim db.row = true) :
    releaseRowWithEvents workerId claim values events tx db =
      ({ db with
          row := (releaseRow workerId claim values tx.now tx.appNow db.row).1
          outbox := db.outbox ++ events }, true) := by
  unfold releaseRowWithEvents releaseRow
  rw [h]
  rfl

theorem releaseRowWithEvents_of_not_held (h : heldBy workerId claim db.row = false) :
    releaseRowWithEvents workerId claim values events tx db = (db, false) := by
  unfold releaseRowWithEvents releaseRow
  rw [h]
  rfl

/-- A bounce of an email that exists is never refused by the foreign key. -/
theorem addFromBounce_ok {list : SuppressionList.Db} {apiKeyId id : Text} {now : Time}
    {input : SuppressionList.AddFromBounceInput}
    (hsrc : ∀ emailId ∈ input.sourceEmailId, emailId ∈ list.emails) :
    ∃ p, addFromBounce toLowerCase list apiKeyId input id now = .ok p ∧
      p.1.emails = list.emails := by
  have href : ((SuppressionList.addFromBounceUpsert toLowerCase apiKeyId input id now).exec
      list.suppressions).2.all list.references = true := by
    unfold SuppressionList.Upsert.exec Table.upsertWhere SuppressionList.addFromBounceUpsert
      SuppressionList.Db.references
    dsimp only
    cases hs : input.sourceEmailId with
    | none => split <;> (try split_ifs) <;> rfl
    | some emailId =>
      have hin := hsrc emailId hs
      split
      · simpa using hin
      · split_ifs
        · simpa using hin
        · rfl
  unfold addFromBounce SuppressionList.Db.upsert
  dsimp only
  rw [if_pos href]
  exact ⟨_, rfl, rfl⟩

/-- What one bounce does: with events it is announced; the row is left alone. -/
structure Files (db db' : QueueDb) (recipients : List Text) : Prop where
  row : db'.row = db.row
  emails : db'.list.emails = db.list.emails
  outbox : ∃ new, db'.outbox = db.outbox ++ new ∧
    new.map WebhookEvent.bounced? = recipients.map some

theorem fileBounce_ok (hid : email.id ∈ db.list.emails) (bounce : InlineBounce) :
    ∃ db', fileBounce toLowerCase email withEvents tx db bounce = .ok db' ∧
      Files db db' (if withEvents then [bounce.recipient] else []) := by
  have hadd : ∃ p, addFromBounce toLowerCase db.list email.apiKeyId
      { email := bounce.recipient
        bounceType := bounce.bounceType
        diagnosticCode := some bounce.code
        sourceEmailId := some email.id
        expiresAt := if bounce.bounceType = .soft then some (tx.appNow + SOFT_BOUNCE_WINDOW_MS)
          else none } (tx.newId bounce.recipient) tx.appNow = .ok p ∧ p.1.emails = db.list.emails :=
    addFromBounce_ok fun _ h => Option.some.inj h ▸ hid
  obtain ⟨⟨list, result⟩, hok, hemails⟩ := hadd
  unfold fileBounce
  rw [hok]
  refine ⟨_, rfl, rfl, hemails, _, rfl, ?_⟩
  cases withEvents <;> rfl

theorem fileBounces_ok (hid : email.id ∈ db.list.emails) (bounces : List InlineBounce) :
    ∃ db', bounces.foldlM (fileBounce toLowerCase email withEvents tx) db = .ok db' ∧
      Files db db' (if withEvents then bounces.map InlineBounce.recipient else []) := by
  induction bounces generalizing db with
  | nil => exact ⟨db, rfl, rfl, rfl, [], (List.append_nil _).symm, by cases withEvents <;> rfl⟩
  | cons bounce bounces ih =>
    have hfirst : ∃ db', fileBounce toLowerCase email withEvents tx db bounce = .ok db' ∧ _ :=
      fileBounce_ok hid bounce
    obtain ⟨db₁, h₁, hf₁⟩ := hfirst
    obtain ⟨db₂, h₂, hf₂⟩ := ih (hf₁.emails ▸ hid)
    refine ⟨db₂, ?_, hf₂.row.trans hf₁.row, hf₂.emails.trans hf₁.emails, ?_⟩
    · rw [List.foldlM_cons, h₁]
      exact h₂
    · obtain ⟨new₁, ho₁, hn₁⟩ := hf₁.outbox
      obtain ⟨new₂, ho₂, hn₂⟩ := hf₂.outbox
      refine ⟨new₁ ++ new₂, by rw [ho₂, ho₁, List.append_assoc], ?_⟩
      rw [List.map_append, hn₁, hn₂]
      cases withEvents <;> rfl

variable (toLowerCase workerId env claim sent withEvents tx) in
/-- **The outcome transaction** files its bounces and then releases the row. -/
theorem writeOutcome_ok (hid : email.id ∈ db.list.emails) :
    ∃ db', Files db db'
        (if withEvents then (bouncesOf env email sent).map InlineBounce.recipient else []) ∧
      writeOutcome toLowerCase workerId env email claim sent withEvents tx db =
        .ok (releaseRowWithEvents workerId claim (decideRowOutcome env email sent).values
          (if withEvents then (decideRowOutcome env email sent).events else []) tx db') := by
  have hfile : ∃ db', (bouncesOf env email sent).foldlM
      (fileBounce toLowerCase email withEvents tx) db = .ok db' ∧ _ := fileBounces_ok hid _
  obtain ⟨db', hok, hfiles⟩ := hfile
  refine ⟨db', hfiles, ?_⟩
  unfold writeOutcome
  rw [hok]
  rfl

/-- Between two databases, nothing but bounces was filed. -/
structure OnlyBounces (db db' : QueueDb) : Prop where
  row : db'.row = db.row
  emails : db'.list.emails = db.list.emails
  outbox : ∀ event ∈ db'.outbox, event.bounced? = none → event ∈ db.outbox

theorem onlyBounces_refl (db : QueueDb) : OnlyBounces db db := ⟨rfl, rfl, fun _ h _ => h⟩

theorem OnlyBounces.trans {db₁ db₂ db₃ : QueueDb} (h : OnlyBounces db₁ db₂)
    (h' : OnlyBounces db₂ db₃) : OnlyBounces db₁ db₃ :=
  ⟨h'.row.trans h.row, h'.emails.trans h.emails, fun event hm hb => h.outbox event (h'.outbox event hm hb) hb⟩

theorem Files.onlyBounces {db' : QueueDb} {recipients : List Text} (h : Files db db' recipients) :
    OnlyBounces db db' := by
  obtain ⟨new, hout, hnew⟩ := h.outbox
  refine ⟨h.row, h.emails, fun event hm hb => ?_⟩
  rw [hout] at hm
  rcases List.mem_append.mp hm with hm | hm
  · exact hm
  · -- every new event announces a bounce
    have hmem : event.bounced? ∈ recipients.map some := hnew ▸ List.mem_map_of_mem hm
    obtain ⟨r, _, hr⟩ := List.mem_map.mp hmem
    rw [hb] at hr
    cases hr

variable {fate : ℕ → Fate} {txs : ℕ → TxEnv}

/-- A claim that does not hold the row only files its bounces. -/
theorem onlyBounces_writesFrom (hid : email.id ∈ db.list.emails)
    (hheld : heldBy workerId claim db.row = false) (n left : ℕ) :
    OnlyBounces db (writesFrom toLowerCase workerId env email claim sent fate txs n left db) := by
  induction left generalizing n db with
  | zero => exact onlyBounces_refl db
  | succ left ih =>
    obtain ⟨db', hfiles, hok⟩ := writeOutcome_ok toLowerCase workerId env claim sent
      (n < OUTCOME_TRIES) (txs n) hid
    have hb := hfiles.onlyBounces
    have hheld' : heldBy workerId claim db'.row = false := hb.row.symm ▸ hheld
    rw [releaseRowWithEvents_of_not_held hheld'] at hok
    unfold writesFrom
    rw [hok]
    cases fate n with
    | rolledBack => exact ih hid hheld (n + 1)
    | committed => exact hb
    | ackLost => exact hb.trans (ih (hb.emails ▸ hid) hheld' (n + 1))

/-- What recording an outcome leaves: the row as it was, or released with the outcome's values and,
of the outcome's events, all or none. -/
structure Records (workerId : Text) (claim : Claim) (outcome : RowOutcome) (tx : TxEnv)
    (db db' : QueueDb) : Prop where
  row : db'.row = (releaseRow workerId claim outcome.values tx.now tx.appNow db.row).1
  emails : db'.list.emails = db.list.emails
  outbox : ∀ event ∈ db'.outbox, event.bounced? = none → event ∈ db.outbox ∨ event ∈ outcome.events

theorem not_heldBy_releaseRow {now appNow : Time} {row : EmailRow}
    (h : heldBy workerId claim row = true) :
    heldBy workerId claim (releaseRow workerId claim values now appNow row).1 = false := by
  unfold releaseRow
  rw [if_pos h, ← Bool.not_eq_true, heldBy_iff]
  rintro ⟨_, hl, _⟩
  cases hl

/-- The writes of a claim that holds the row. -/
theorem writesFrom_spec (hid : email.id ∈ db.list.emails)
    (hheld : heldBy workerId claim db.row = true) (n left : ℕ) :
    OnlyBounces db (writesFrom toLowerCase workerId env email claim sent fate txs n left db) ∨
      ∃ m, fate m ≠ .rolledBack ∧ Records workerId claim (decideRowOutcome env email sent) (txs m) db
        (writesFrom toLowerCase workerId env email claim sent fate txs n left db) := by
  induction left generalizing n with
  | zero => exact .inl (onlyBounces_refl db)
  | succ left ih =>
    obtain ⟨db', hfiles, hok⟩ := writeOutcome_ok toLowerCase workerId env claim sent
      (n < OUTCOME_TRIES) (txs n) hid
    have hb := hfiles.onlyBounces
    have hheld' : heldBy workerId claim db'.row = true := hb.row.symm ▸ hheld
    rw [releaseRowWithEvents_of_held hheld', hb.row] at hok
    have hrec : Records workerId claim (decideRowOutcome env email sent) (txs n) db
        { db' with
          row := (releaseRow workerId claim (decideRowOutcome env email sent).values (txs n).now
            (txs n).appNow db.row).1
          outbox := db'.outbox ++
            if decide (n < OUTCOME_TRIES) then (decideRowOutcome env email sent).events else [] } := by
      refine ⟨rfl, hb.emails, fun event hm hnone => ?_⟩
      rcases List.mem_append.mp hm with hm | hm
      · exact .inl (hb.outbox event hm hnone)
      · split_ifs at hm
        · exact .inr hm
        · cases hm
    unfold writesFrom
    rw [hok]
    cases hf : fate n with
    | rolledBack => exact ih (n + 1)
    | committed => exact .inr ⟨n, fun h => (by rw [hf] at h; cases h), hrec⟩
    | ackLost =>
      refine .inr ⟨n, fun h => (by rw [hf] at h; cases h), ?_⟩
      have hafter : OnlyBounces _
          (writesFrom toLowerCase workerId env email claim sent fate txs (n + 1) left _) :=
        onlyBounces_writesFrom (hrec.emails ▸ hid) (not_heldBy_releaseRow hheld) (n + 1) left
      refine ⟨hafter.row, hafter.emails.trans hrec.emails, fun event hm hnone => ?_⟩
      exact hrec.outbox event (hafter.outbox event hm hnone) hnone

/-- **`recordSendOutcome`** by a claim that holds the row. -/
theorem recordSendOutcome_spec (hid : email.id ∈ db.list.emails)
    (hheld : heldBy workerId claim db.row = true) :
    OnlyBounces db (recordSendOutcome toLowerCase workerId env email claim sent fate txs db) ∨
      ∃ m, fate m ≠ .rolledBack ∧ Records workerId claim (decideRowOutcome env email sent) (txs m) db
        (recordSendOutcome toLowerCase workerId env email claim sent fate txs db) :=
  writesFrom_spec hid hheld 0 (OUTCOME_TRIES + 1)

/-- The events of an outcome announce no bounce. -/
theorem bounced?_of_mem_events {event : WebhookEvent}
    (h : event ∈ (decideRowOutcome env email sent).events) : event.bounced? = none := by
  rcases decideRowOutcome_cases env email sent with ⟨_, _, _, ho⟩ | ⟨_, _, _, ho⟩ | ⟨_, ho⟩
  · rw [ho] at h
    cases h
  · rw [ho] at h
    unfold retryOutcome RowOutcome.events at h
    dsimp only at h
    split_ifs at h
    · rw [List.mem_singleton.mp h]
      rfl
    · cases h
  · rw [ho] at h
    unfold terminalOutcome RowOutcome.events at h
    rcases List.mem_append.mp h with h | h
    · split_ifs at h
      · rw [List.mem_singleton.mp h]
        rfl
      · cases h
    · split_ifs at h
      · rw [List.mem_singleton.mp h]
        rfl
      · cases h

end Record

end BunMail.Emails
