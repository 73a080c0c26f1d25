import BunMail.Emails.QueueRun
import BunMail.Emails.RowLedger

/-!
# The status of a row and what was delivered

`decideRowOutcome` ends a row by its delivery state, but a claim can also end it without sending: its
API key is revoked, a read throws, no address parses, or the DKIM key was unusable for the whole
retry window.  That writes `failed` and looks at no delivery state.  The status, the stored state and
the events agree along a run exactly when no such claim ends a row with a stored state.
-/

namespace BunMail.Emails.Queue

open Run

/-- Not both `email.sent` and `email.failed`; nothing delivered in a `failed` row; nothing pending in
a final one. -/
structure Agrees (db : QueueDb) : Prop where
  events : ¬ (db.outbox.any (·.isSent) = true ∧ db.outbox.any (·.isFailed) = true)
  delivered : db.row.status = .failed → db.row.delivered = false
  settled : db.row.status.final = true → db.row.pending = false

section Agrees

variable (toLowerCase : Text → Text)

/-- The condition on a step: a claim that ends the row without sending finds no delivery state
stored. -/
def AbortsUnstored (s : State) : Action → Prop
  | .write i fate _ => ∀ w ∈ s.writers[i]?, w.done = false → fate ≠ .rolledBack →
      heldBy w.workerId w.claim s.db.row = true → aborts toLowerCase w.env w.email w.claim = true →
        s.db.row.deliveryState = none
  | .claimNextEmails .. | .renewLease .. | .releaseOwnLeases .. => True

instance (s : State) : ∀ a, Decidable (AbortsUnstored toLowerCase s a)
  | .write i fate _ => inferInstanceAs (Decidable (∀ w ∈ s.writers[i]?, w.done = false →
      fate ≠ .rolledBack → heldBy w.workerId w.claim s.db.row = true →
        aborts toLowerCase w.env w.email w.claim = true → s.db.row.deliveryState = none))
  | .claimNextEmails .. | .renewLease .. | .releaseOwnLeases .. => inferInstanceAs (Decidable True)

/-! ## The invariant -/

/-- The attempt number a claim needs to hold the row, now or after the next claim. -/
def nextAttempt (row : EmailRow) : ℕ := if row.status = .sending then row.attempts else row.attempts + 1

/-- A stored state that can go on: something is pending, and `email.sent` was raised only if
something is sent. -/
structure Backed (outbox : List WebhookEvent) (row : EmailRow) : Prop where
  ready : Ready toLowerCase (row.ledger toLowerCase)
  sent : outbox.any (·.isSent) = true → row.delivered = true
  pending : row.deliveryState ≠ none → row.pending = true

/-- While the row is open: `email.failed` was not raised, and both the row and any claim that may
still write it can go on. -/
structure Open (s : State) : Prop where
  notFailed : s.db.outbox.any (·.isFailed) = false
  row : Backed toLowerCase s.db.outbox s.db.row
  bound : ∀ w ∈ s.writers, w.email.attempts ≤ nextAttempt s.db.row
  live : ∀ w ∈ s.writers, w.email.attempts = nextAttempt s.db.row →
    Backed toLowerCase s.db.outbox w.email.toEmailRow

structure RowInv (s : State) : Prop where
  inv : Inv toLowerCase s
  isOpen : s.db.row.status.final = false → Open toLowerCase s

variable {toLowerCase} {s : State} {w : Writer} {tx : TxEnv} {db db' : QueueDb}

theorem agrees_of_open (h : Open toLowerCase s) (hs : s.db.row.status.final = false) :
    Agrees s.db where
  events hboth := by
    rw [h.notFailed] at hboth
    exact Bool.false_ne_true hboth.2
  delivered hf := by
    rw [hf] at hs
    cases hs
  settled hf := by
    rw [hf] at hs
    cases hs

/-- The same delivery state, and no other `email.sent`. -/
theorem Backed.congr {outbox outbox' : List WebhookEvent} {row row' : EmailRow}
    (h : Backed toLowerCase outbox row) (hout : outbox'.any (·.isSent) = outbox.any (·.isSent))
    (hl : row'.ledger toLowerCase = row.ledger toLowerCase)
    (hd : row'.deliveryState = row.deliveryState) : Backed toLowerCase outbox' row' where
  ready := hl ▸ h.ready
  sent hs := by
    unfold EmailRow.delivered
    rw [hd]
    exact h.sent (hout ▸ hs)
  pending hp := by
    unfold EmailRow.pending
    rw [hd] at hp ⊢
    exact h.pending hp

/-- Bounces do not matter. -/
theorem any_outbox_of_files {p : WebhookEvent → Bool} {recipients : List Text}
    (hp : ∀ event, event.bounced? ≠ none → p event = false) (h : Files db db' recipients) :
    db'.outbox.any p = db.outbox.any p := by
  obtain ⟨new, hout, hnew⟩ := h.outbox
  have hfalse : new.any p = false := by
    rw [List.any_eq_false]
    intro event hm
    rw [Bool.not_eq_true]
    apply hp event
    have hmem : event.bounced? ∈ recipients.map some := hnew ▸ List.mem_map_of_mem hm
    obtain ⟨r, _, hr⟩ := List.mem_map.mp hmem
    rw [← hr]
    exact Option.some_ne_none r
  rw [hout, List.any_append, hfalse, Bool.or_false]

theorem any_isSent_of_files {recipients : List Text} (h : Files db db' recipients) :
    db'.outbox.any (·.isSent) = db.outbox.any (·.isSent) :=
  any_outbox_of_files (fun event hb => by cases event <;> first | rfl | exact absurd rfl hb) h

theorem any_isFailed_of_files {recipients : List Text} (h : Files db db' recipients) :
    db'.outbox.any (·.isFailed) = db.outbox.any (·.isFailed) :=
  any_outbox_of_files (fun event hb => by cases event <;> first | rfl | exact absurd rfl hb) h

/-- A step that changes at most the lease of the row, and adds no event of the row. -/
theorem Open.congr {writers : List Writer} {commits : List Commit} (h : Open toLowerCase s)
    (hsent : db.outbox.any (·.isSent) = s.db.outbox.any (·.isSent))
    (hfailed : db.outbox.any (·.isFailed) = s.db.outbox.any (·.isFailed))
    (hl : db.row.ledger toLowerCase = s.db.row.ledger toLowerCase)
    (hd : db.row.deliveryState = s.db.row.deliveryState)
    (hn : nextAttempt db.row = nextAttempt s.db.row)
    (hw : ∀ w ∈ writers, ∃ w₀ ∈ s.writers,
      w.email = w₀.email ∧ w.env = w₀.env ∧ w.effect = w₀.effect) :
    Open toLowerCase ⟨db, writers, commits⟩ where
  notFailed := hfailed.trans h.notFailed
  row := h.row.congr hsent hl hd
  bound w hmem := by
    obtain ⟨w₀, h₀, he, _⟩ := hw w hmem
    rw [he, hn]
    exact h.bound w₀ h₀
  live w hmem hattempt := by
    obtain ⟨w₀, h₀, he, _⟩ := hw w hmem
    rw [he] at hattempt ⊢
    exact (h.live w₀ h₀ (hattempt.trans hn)).congr hsent rfl rfl

theorem agrees_congr (hsent : db'.outbox.any (·.isSent) = db.outbox.any (·.isSent))
    (hfailed : db'.outbox.any (·.isFailed) = db.outbox.any (·.isFailed))
    (hs : db'.row.status = db.row.status) (hd : db'.row.deliveryState = db.row.deliveryState) :
    Agrees db' ↔ Agrees db := by
  have hdel : db'.row.delivered = db.row.delivered := by unfold EmailRow.delivered; rw [hd]
  have hpend : db'.row.pending = db.row.pending := by unfold EmailRow.pending; rw [hd]
  constructor
  · rintro ⟨h₁, h₂, h₃⟩
    rw [hsent, hfailed] at h₁
    rw [hs, hdel] at h₂
    rw [hs, hpend] at h₃
    exact ⟨h₁, h₂, h₃⟩
  · rintro ⟨h₁, h₂, h₃⟩
    rw [← hsent, ← hfailed] at h₁
    rw [← hs, ← hdel] at h₂
    rw [← hs, ← hpend] at h₃
    exact ⟨h₁, h₂, h₃⟩

/-! ## Claims and leases -/

theorem rowInv_claim (h : RowInv toLowerCase s) (workerId : Text) (now appNow : Time)
    (env : SendEnv) : RowInv toLowerCase (s.claim toLowerCase workerId now appNow env) ∧
      (Agrees (s.claim toLowerCase workerId now appNow env).db ↔ Agrees s.db) := by
  have hinv := inv_claim h.inv workerId now appNow env
  unfold State.claim at hinv ⊢
  cases hc : Emails.claimNextEmails workerId now appNow s.db.row with
  | none => exact ⟨h, Iff.rfl⟩
  | some email =>
    rw [hc] at hinv
    obtain ⟨hclaim, hemail⟩ := claimNextEmails_eq_some hc
    have hopen := not_final_of_claimable hclaim
    have ho := h.isOpen hopen
    have hstatus : email.status = .sending := by rw [hemail]
    have hattempts : email.attempts = s.db.row.attempts + 1 := by rw [hemail]
    have hnext : nextAttempt email.toEmailRow = s.db.row.attempts + 1 := by
      rw [nextAttempt, if_pos hstatus, hattempts]
    have hnew : Backed toLowerCase s.db.outbox email.toEmailRow :=
      ho.row.congr rfl (by rw [hemail]; rfl) (by rw [hemail])
    have ho' : Open toLowerCase ⟨{ s.db with row := email.toEmailRow },
        s.writers ++ [Writer.start toLowerCase workerId env email], s.commits⟩ := by
      refine ⟨ho.notFailed, hnew, fun w hw => ?_, fun w hw hlive => ?_⟩
      · show w.email.attempts ≤ nextAttempt email.toEmailRow
        rcases List.mem_append.mp hw with hw | hw
        · have hb := ho.bound w hw
          unfold nextAttempt at hb
          split_ifs at hb <;> omega
        · rw [List.mem_singleton.mp hw, hnext, ← hattempts]
          rfl
      · rcases List.mem_append.mp hw with hw | hw
        · -- a claim of this number is one the row was due for
          apply ho.live w hw
          have hb := ho.bound w hw
          have heq : w.email.attempts = s.db.row.attempts + 1 := hlive.trans hnext
          unfold nextAttempt at hb ⊢
          split_ifs at hb ⊢ <;> omega
        · rw [List.mem_singleton.mp hw]
          exact hnew
    refine ⟨⟨hinv, fun _ => ho'⟩, iff_of_true ?_ (agrees_of_open ho hopen)⟩
    refine agrees_of_open ho' ?_
    show email.status.final = false
    rw [hstatus]
    rfl

/-- A change of the lease. -/
theorem rowInv_lease (h : RowInv toLowerCase s) {row : EmailRow}
    (hl : ∃ leaseUntil, row = { s.db.row with leaseUntil := leaseUntil }) :
    RowInv toLowerCase { s with db := { s.db with row := row } } ∧
      (Agrees { s.db with row := row } ↔ Agrees s.db) := by
  obtain ⟨leaseUntil, rfl⟩ := hl
  refine ⟨⟨inv_row h.inv rfl, fun hs => ?_⟩, agrees_congr rfl rfl rfl rfl⟩
  exact (h.isOpen hs).congr rfl rfl rfl rfl rfl fun w hw => ⟨w, hw, rfl, rfl, rfl⟩

/-! ## Writes -/

/-- The row goes back to `queued`. -/
theorem open_of_queued {outbox : List WebhookEvent} {list : SuppressionList.Db} {row : EmailRow}
    {writers : List Writer} {commits : List Commit} (h : Open toLowerCase s)
    (hsending : s.db.row.status = .sending) (hstatus : row.status = .queued)
    (hb : Backed toLowerCase outbox row) (hfailed : outbox.any (·.isFailed) = false)
    (hattempts : row.attempts = s.db.row.attempts ∨
      row.attempts = s.db.row.attempts - 1 ∧
        outbox.any (·.isSent) = s.db.outbox.any (·.isSent))
    (hw : ∀ w ∈ writers, ∃ w₀ ∈ s.writers,
      w.email = w₀.email ∧ w.env = w₀.env ∧ w.effect = w₀.effect) :
    Open toLowerCase ⟨⟨row, list, outbox⟩, writers, commits⟩ := by
  have hnext : nextAttempt row = row.attempts + 1 := by
    rw [nextAttempt, hstatus, if_neg (by decide)]
  have hnow : nextAttempt s.db.row = s.db.row.attempts := by rw [nextAttempt, if_pos hsending]
  refine ⟨hfailed, hb, fun w hmem => ?_, fun w hmem hlive => ?_⟩
  · obtain ⟨w₀, h₀, he, _⟩ := hw w hmem
    have hbound := h.bound w₀ h₀
    show w.email.attempts ≤ nextAttempt row
    rw [he]
    omega
  · obtain ⟨w₀, h₀, he, _⟩ := hw w hmem
    have hbound := h.bound w₀ h₀
    have heq : w.email.attempts = row.attempts + 1 := hlive.trans hnext
    rw [he] at heq
    -- only a deferral leaves a claim that may write again
    rcases hattempts with ha | ⟨ha, hsent⟩
    · omega
    · rw [he]
      exact (h.live w₀ h₀ (by omega)).congr hsent rfl rfl

section Held

variable {row' : EmailRow} {outbox : List WebhookEvent}

/-- A claim that ends the row without sending agrees with a row nothing is stored of, and with no
other. -/
theorem agrees_of_fails_iff (h : Open toLowerCase s) (hf : w.effect.Fails)
    (hrow : Released w.values s.db.row row')
    (hsent : outbox.any (·.isSent) = s.db.outbox.any (·.isSent)) {list : SuppressionList.Db} :
    row'.status = .failed ∧
      (Agrees ⟨row', list, outbox ++ w.events⟩ ↔ s.db.row.deliveryState = none) := by
  obtain ⟨lastError, events, he, hevents⟩ := hf
  have hvalues : w.values = { status := .failed, lastError := some (some lastError) } := by
    unfold Writer.values; rw [he]
  have hevents' : w.events = events := by unfold Writer.events; rw [he]
  have hstatus : row'.status = .failed := by rw [hrow.status, hvalues]
  have hstate : row'.deliveryState = s.db.row.deliveryState := by
    rw [hrow.deliveryState, hvalues]; rfl
  refine ⟨hstatus, fun ha => ?_, fun hnone => ?_⟩
  · by_contra hne
    have hpend := h.row.pending hne
    have hsettled := ha.settled (by show row'.status.final = true; rw [hstatus]; rfl)
    unfold EmailRow.pending at hpend hsettled
    rw [show row'.deliveryState = _ from hstate, hpend] at hsettled
    cases hsettled
  · have hnot : s.db.outbox.any (·.isSent) = false := by
      rw [← Bool.not_eq_true]
      intro hs
      have hd := h.row.sent hs
      unfold EmailRow.delivered at hd
      rw [hnone] at hd
      cases hd
    refine ⟨fun hboth => ?_, fun _ => ?_, fun _ => ?_⟩
    · -- neither the outbox nor the claim has raised `email.sent`
      have hev : w.events.any (·.isSent) = false := by
        rw [hevents', List.any_eq_false]
        intro event hm
        have := hevents event hm
        cases event <;> first | exact Bool.false_ne_true | cases this
      rw [List.any_append, hev, hsent, hnot] at hboth
      exact Bool.false_ne_true hboth.1
    · show row'.delivered = false
      unfold EmailRow.delivered
      rw [hstate, hnone]
      rfl
    · show row'.pending = false
      unfold EmailRow.pending
      rw [hstate, hnone]
      rfl

variable {result : SendMailResult}

/-- The events of the row a claim enqueues are those of its outcome, all or none. -/
theorem any_events_of_record {sent : SentAttempt} {p : WebhookEvent → Bool}
    (he : w.effect = .record sent) (h : w.events.any p = true) :
    (decideRowOutcome w.env.decision w.email sent).events.any p = true := by
  unfold Writer.events at h
  rw [he] at h
  dsimp only at h
  split_ifs at h
  · exact h
  · cases h

theorem values_of_record {sent : SentAttempt} (he : w.effect = .record sent) :
    w.values = (decideRowOutcome w.env.decision w.email sent).values := by
  unfold Writer.values
  rw [he]

/-- `email.sent` is raised only for a row with a delivery. -/
theorem sent_of_record (hb : Backed toLowerCase s.db.outbox w.email.toEmailRow)
    (hsend : sendMail toLowerCase (sendOptionsOf w.env w.email) w.env.mailer = .ok result)
    (he : w.effect = .record (sentAttemptOf w.env w.email result))
    (hout : outbox.any (·.isSent) = s.db.outbox.any (·.isSent))
    (hs : (outbox ++ w.events).any (·.isSent) = true) : anySent result.deliveryState = true := by
  rw [List.any_append, Bool.or_eq_true, hout] at hs
  rcases hs with hs | hs
  · exact anySent_sendMail hsend hb.ready (hb.sent hs)
  · exact (any_isSent_events_iff.mp (any_events_of_record he hs)).1

/-- An outcome that does not end the row leaves it open. -/
theorem backed_of_record (hb : Backed toLowerCase s.db.outbox w.email.toEmailRow)
    (hsend : sendMail toLowerCase (sendOptionsOf w.env w.email) w.env.mailer = .ok result)
    (he : w.effect = .record (sentAttemptOf w.env w.email result))
    (hrow : Released w.values s.db.row row')
    (hout : outbox.any (·.isSent) = s.db.outbox.any (·.isSent))
    (ht : (decideRowOutcome w.env.decision w.email (sentAttemptOf w.env w.email result)).isTerminal =
      false) :
    Backed toLowerCase (outbox ++ w.events) row' := by
  rw [values_of_record he] at hrow
  have hstate := deliveryState_of_released hrow
  refine ⟨?_, fun hs => ?_, fun _ => ?_⟩
  · rw [ledger_of_saved hsend rfl (by rw [hstate, deliveryState_decideRowOutcome]; rfl)]
    exact ready_attemptStep hb.ready
  · rw [delivered_of_released hrow]
    exact sent_of_record hb hsend he hout hs
  · unfold EmailRow.pending
    rw [hstate, ht, Option.any_some, anyRetry_jsonb]
    exact (of_isTerminal_eq_false ht).2.1

/-- An outcome that ends the row agrees with what it stores. -/
theorem agrees_of_record (h : Open toLowerCase s)
    (hb : Backed toLowerCase s.db.outbox w.email.toEmailRow)
    (hsend : sendMail toLowerCase (sendOptionsOf w.env w.email) w.env.mailer = .ok result)
    (he : w.effect = .record (sentAttemptOf w.env w.email result))
    (hrow : Released w.values s.db.row row')
    (hout : outbox.any (·.isSent) = s.db.outbox.any (·.isSent))
    (hfailed : outbox.any (·.isFailed) = s.db.outbox.any (·.isFailed))
    (ht : (decideRowOutcome w.env.decision w.email (sentAttemptOf w.env w.email result)).isTerminal =
      true) {list : SuppressionList.Db} :
    row'.status.final = true ∧ Agrees ⟨row', list, outbox ++ w.events⟩ := by
  rw [values_of_record he] at hrow
  have hstatus : row'.status = _ := hrow.status.trans (of_isTerminal ht)
  refine ⟨?_, fun hboth => ?_, fun hf => ?_, fun _ => ?_⟩
  · rw [hstatus]
    unfold finalStatusOf
    split_ifs <;> rfl
  · have hs := sent_of_record hb hsend he hout hboth.1
    have hf := hboth.2
    rw [List.any_append, hfailed, h.notFailed, Bool.false_or] at hf
    have hnone : anySent result.deliveryState = false :=
      (of_any_isFailed_events (any_events_of_record he hf)).2
    rw [hs] at hnone
    cases hnone
  · show row'.delivered = false
    rw [delivered_of_released hrow, ← Bool.not_eq_true]
    intro hs
    -- with a delivery the status would be `sent`
    rw [← anySent_finalStateOf (sentAttemptOf w.env w.email result).deferredKeys] at hs
    have hf' : row'.status = .failed := hf
    rw [hstatus, finalStatusOf, if_pos hs] at hf'
    cases hf'
  · show row'.pending = false
    unfold EmailRow.pending
    rw [deliveryState_of_released hrow, ht, Option.any_some, anyRetry_jsonb]
    exact anyRetry_finalStateOf _

/-- **A committed release** by a claim that holds the row. -/
theorem rowInv_release {writers : List Writer} {commits : List Commit} {list : SuppressionList.Db}
    (h : Open toLowerCase s) (hb : Backed toLowerCase s.db.outbox w.email.toEmailRow)
    (hsending : s.db.row.status = .sending) (hattempts : s.db.row.attempts = w.email.attempts)
    (he : w.effect = sendClaimedEmail toLowerCase w.env w.email w.claim)
    (hrow : Released w.values s.db.row row')
    (hsent : outbox.any (·.isSent) = s.db.outbox.any (·.isSent))
    (hfailed : outbox.any (·.isFailed) = s.db.outbox.any (·.isFailed))
    (hw : ∀ w ∈ writers, ∃ w₀ ∈ s.writers,
      w.email = w₀.email ∧ w.env = w₀.env ∧ w.effect = w₀.effect) :
    (row'.status.final = false →
        Open toLowerCase ⟨⟨row', list, outbox ++ w.events⟩, writers, commits⟩) ∧
      (Agrees ⟨row', list, outbox ++ w.events⟩ ↔
        (aborts toLowerCase w.env w.email w.claim = true → s.db.row.deliveryState = none)) := by
  -- a row that is open afterwards agrees, and the claim did not end it
  have hopen : aborts toLowerCase w.env w.email w.claim = false → row'.status.final = false →
      Open toLowerCase ⟨⟨row', list, outbox ++ w.events⟩, writers, commits⟩ →
        (row'.status.final = false →
          Open toLowerCase ⟨⟨row', list, outbox ++ w.events⟩, writers, commits⟩) ∧
        (Agrees ⟨row', list, outbox ++ w.events⟩ ↔
          (aborts toLowerCase w.env w.email w.claim = true → s.db.row.deliveryState = none)) :=
    fun hna hfin ho => ⟨fun _ => ho, iff_of_true (agrees_of_open ho hfin) fun ha => absurd (hna.symm.trans ha) Bool.false_ne_true⟩
  have hcases := sendClaimedEmail_cases toLowerCase w.env w.email w.claim
  rw [← he] at hcases
  rcases hcases with ⟨ha, hf⟩ | ⟨hna, ⟨result, hsend, hrec⟩ | hreq⟩
  · -- the claim ends the row without sending
    obtain ⟨hstatus, hiff⟩ := agrees_of_fails_iff h hf hrow hsent
    refine ⟨fun hfin => ?_, hiff.trans ⟨fun hn _ => hn, fun hn => hn ha⟩⟩
    rw [hstatus] at hfin
    cases hfin
  · cases ht : (decideRowOutcome w.env.decision w.email
        (sentAttemptOf w.env w.email result)).isTerminal with
    | true =>
      obtain ⟨hfin, hagrees⟩ := agrees_of_record h hb hsend hrec hrow hsent hfailed ht
      refine ⟨fun hnf => ?_, iff_of_true hagrees fun ha => absurd (hna.symm.trans ha) Bool.false_ne_true⟩
      rw [hfin] at hnf
      cases hnf
    | false =>
      obtain ⟨hqueued, _, hset⟩ := of_isTerminal_eq_false ht
      have hstatus : row'.status = .queued :=
        (hrow.status.trans (congrArg _ (values_of_record hrec))).trans hqueued
      refine hopen hna (by rw [hstatus]; rfl) (open_of_queued h hsending hstatus
        (backed_of_record hb hsend hrec hrow hsent ht) ?_ ?_ hw)
      · rw [List.any_append, hfailed, h.notFailed, Bool.false_or, ← Bool.not_eq_true]
        intro hf
        rw [(of_any_isFailed_events (any_events_of_record hrec hf)).1] at ht
        cases ht
      · have hatt := hrow.attempts
        rw [values_of_record hrec] at hatt
        rcases hset with hnone | ⟨hsome, hev⟩
        · rw [hnone] at hatt
          exact .inl hatt
        · rw [hsome, ← hattempts] at hatt
          refine .inr ⟨hatt, ?_⟩
          have hnil : w.events = [] := by
            unfold Writer.events
            rw [hrec]
            dsimp only
            rw [hev, ite_self]
          rw [hnil, List.append_nil, hsent]
  · obtain ⟨delay, lastError, hrel⟩ := hreq
    have hvalues : w.values = { status := .queued, nextAttemptInMs := some delay
                                lastError := some (some lastError) } := by
      unfold Writer.values; rw [hrel]
    have hevents : w.events = [] := by unfold Writer.events; rw [hrel]
    have hstatus : row'.status = .queued := by rw [hrow.status, hvalues]
    have hstate : row'.deliveryState = s.db.row.deliveryState := by
      rw [hrow.deliveryState, hvalues]; rfl
    refine hopen hna (by rw [hstatus]; rfl) (open_of_queued h hsending hstatus ?_ ?_ ?_ hw)
    · rw [hevents, List.append_nil]
      exact h.row.congr hsent (ledger_congr hstate hrow.addresses) hstate
    · rw [hevents, List.append_nil, hfailed, h.notFailed]
    · rw [hrow.attempts, hvalues]
      exact .inl rfl

end Held

theorem abortsUnstored_write {i : ℕ} {fate : Fate} (hw : s.writers[i]? = some w)
    (hd : w.done = false) (hf : fate ≠ .rolledBack) :
    AbortsUnstored toLowerCase s (.write i fate tx) ↔ (heldBy w.workerId w.claim s.db.row = true →
      aborts toLowerCase w.env w.email w.claim = true → s.db.row.deliveryState = none) := by
  rw [AbortsUnstored, hw]
  exact ⟨fun h => h w rfl hd hf, fun h w' hw' _ _ => Option.some.inj hw' ▸ h⟩

/-- **A write** keeps the invariant, and the row agrees exactly when it did and the write meets the
condition. -/
theorem rowInv_write (h : RowInv toLowerCase s) (i : ℕ) (fate : Fate) (tx : TxEnv) :
    RowInv toLowerCase (s.write toLowerCase i fate tx) ∧
      (Agrees (s.write toLowerCase i fate tx).db ↔
        Agrees s.db ∧ AbortsUnstored toLowerCase s (.write i fate tx)) := by
  have hinv : Inv toLowerCase (s.write toLowerCase i fate tx) := inv_step h.inv (.write i fate tx)
  rcases write_cases h.inv i fate tx with
    ⟨heq, hdone⟩ | ⟨w, hw, hnd, w', hw', ⟨hfate, heq⟩ | ⟨hfate, db', hf, heq⟩⟩
  · rw [heq]
    refine ⟨h, (and_iff_left fun w hw hnd => ?_).symm⟩
    rw [hdone w hw] at hnd
    cases hnd
  · rw [heq] at hinv ⊢
    refine ⟨⟨hinv, fun hs => ?_⟩, (and_iff_left fun _ _ _ hne => absurd hfate hne).symm⟩
    exact (h.isOpen hs).congr rfl rfl rfl rfl rfl (exists_of_mem_set hw hw')
  · have hsent := any_isSent_of_files hf
    have hfailed := any_isFailed_of_files hf
    rw [heq] at hinv ⊢
    rw [abortsUnstored_write hw hnd hfate]
    cases hheld : heldBy w.workerId w.claim s.db.row with
    | false =>
      -- the claim lost the row: only its bounces are filed
      have hheld' : heldBy w.workerId w.claim db'.row = false := hf.row.symm ▸ hheld
      rw [releaseRowWithEvents_of_not_held hheld'] at hinv ⊢
      refine ⟨⟨hinv, fun hs => ?_⟩, ?_⟩
      · exact (h.isOpen (hf.row ▸ hs)).congr hsent hfailed (by rw [hf.row]) (by rw [hf.row])
          (by rw [hf.row]) (exists_of_mem_set hw hw')
      · rw [agrees_congr hsent hfailed (by rw [hf.row]) (by rw [hf.row])]
        exact (and_iff_left fun ht => absurd ht Bool.false_ne_true).symm
    | true =>
      obtain ⟨_, _, hattempts, hsending⟩ := heldBy_iff.mp hheld
      have hnf : s.db.row.status.final = false := by rw [hsending]; rfl
      have hopen := h.isOpen hnf
      have hmem := List.mem_of_getElem? hw
      have hlive : Backed toLowerCase s.db.outbox w.email.toEmailRow :=
        hopen.live w hmem (by rw [nextAttempt, if_pos hsending, hattempts]; rfl)
      have hheld' : heldBy w.workerId w.claim db'.row = true := hf.row.symm ▸ hheld
      rw [releaseRowWithEvents_of_held hheld'] at hinv ⊢
      have hrow : Released w.values s.db.row
          (releaseRow w.workerId w.claim w.values tx.now tx.appNow db'.row).1 := by
        rw [hf.row]
        exact released_of_held hheld
      obtain ⟨hop, hiff⟩ := rowInv_release hopen hlive hsending hattempts (h.inv.effects w hmem) hrow
        hsent hfailed (exists_of_mem_set hw hw')
      refine ⟨⟨hinv, hop⟩, hiff.trans ?_⟩
      rw [and_iff_right (agrees_of_open hopen hnf)]
      exact ⟨fun hc _ => hc, fun hc => hc rfl⟩

/-- **Step.** -/
theorem rowInv_step (h : RowInv toLowerCase s) (a : Action) :
    RowInv toLowerCase (step toLowerCase s a) ∧
      (Agrees (step toLowerCase s a).db ↔ Agrees s.db ∧ AbortsUnstored toLowerCase s a) := by
  cases a with
  | claimNextEmails workerId now appNow env =>
    obtain ⟨hi, ha⟩ := rowInv_claim h workerId now appNow env
    exact ⟨hi, ha.trans (iff_of_eq (and_true _)).symm⟩
  | renewLease i now =>
    rw [step]
    cases s.writers[i]? with
    | none => exact ⟨h, (iff_of_eq (and_true _)).symm⟩
    | some w =>
      have hl : ∃ leaseUntil, (Emails.renewLease w.workerId w.claim now s.db.row).1 =
          { s.db.row with leaseUntil := leaseUntil } := by
        unfold Emails.renewLease
        split_ifs
        · exact ⟨_, rfl⟩
        · exact ⟨s.db.row.leaseUntil, rfl⟩
      obtain ⟨hi, ha⟩ := rowInv_lease h hl
      exact ⟨hi, ha.trans (iff_of_eq (and_true _)).symm⟩
  | releaseOwnLeases workerId now =>
    have hl : ∃ leaseUntil, Emails.releaseOwnLeases workerId now s.db.row =
        { s.db.row with leaseUntil := leaseUntil } := by
      unfold Emails.releaseOwnLeases
      split_ifs
      · exact ⟨_, rfl⟩
      · exact ⟨s.db.row.leaseUntil, rfl⟩
    obtain ⟨hi, ha⟩ := rowInv_lease h hl
    exact ⟨hi, ha.trans (iff_of_eq (and_true _)).symm⟩
  | write i fate tx => exact rowInv_write h i fate tx

/-! ## Whole runs -/

variable (toLowerCase) in
/-- Where the claims start: a queued row, new or with a state stored before the domain column in
which something is pending, whose events agree with it. -/
structure Starts (db : QueueDb) : Prop where
  listed : db.row.id ∈ db.list.emails
  queued : db.row.status = .queued
  origin : Origin toLowerCase db.row.envelope (db.row.ledger toLowerCase)
  pending : db.row.deliveryState ≠ none → db.row.pending = true
  sent : db.outbox.any (·.isSent) = true → db.row.delivered = true
  notFailed : db.outbox.any (·.isFailed) = false

theorem rowInv_start (h : Starts toLowerCase db) : RowInv toLowerCase ⟨db, [], []⟩ where
  inv := inv_start h.listed
  isOpen _ := ⟨h.notFailed, ⟨ready_of_origin h.origin, h.sent, h.pending⟩, fun w hw => (by cases hw),
    fun w hw => (by cases hw)⟩

variable (toLowerCase) in
/-- The row agrees with what was delivered in every state of a run. -/
def AgreesThroughout (db : QueueDb) (as : List Action) : Prop :=
  ∀ bs, bs <+: as → Agrees (run (step toLowerCase) ⟨db, [], []⟩ bs).db

end Agrees

/-! ## A key lost after a delivery -/

/-- An email to two domains. -/
def twoDomains : EmailRow := { oneRecipient with toAddress := "a@x.org, b@y.org" }

/-- One domain accepts the message, the other asks to try again later. -/
def halfDelivered : SendEnv :=
  working (answering fun host =>
    if host = "mx.x.org".toList then .resolved [] []
    else .threw (.error { message := "Message failed", responseCode := some 451
                          response := some "451 4.3.0 Try again later" }))

/-- The DKIM key of the sender cannot be decrypted. -/
def keyUnreadable : SendEnv := { halfDelivered with domain := .ok (some ⟨"from.org", true⟩) }

theorem starts_twoDomains : Starts id (newDb twoDomains) :=
  ⟨by decide, rfl, .inl rfl, fun h => absurd rfl h, fun h => (by cases h), rfl⟩

end BunMail.Emails.Queue
