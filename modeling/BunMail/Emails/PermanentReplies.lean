import BunMail.Emails.QueueOutcome

/-!
# Replies that suppress a recipient

A failed send is classified from the first line of the server's reply, by the class of its enhanced
status code when it carries one and of its three-digit code otherwise; without a reply it is not
classified.  An attempt suppresses and announces for good only where that class is 5 and the reply is
not about the sender, and for a day where a full mailbox outlasted the retry window.
-/

namespace BunMail.Emails

open SmtpError
open SuppressionList (BounceType normaliseEmail)

/-! ## What is said of a reply -/

/-- The class a reply line is judged by. -/
def replyClass (line : ReplyLine) : Char :=
  (line.enhanced.map Enhanced.cls).getD (line.basic.headD ' ')

/-- The line starts with a reply code and a space or a hyphen. -/
def startsReply (line : Text) : Bool :=
  match line with
  | a :: b :: c :: sep :: _ => isStatusClass a && b.isDigit && c.isDigit && (sep = ' ' || sep = '-')
  | _ => false

/-- The recipient is refused for good. -/
def RefusedForGood (err : Thrown) : Prop := ∃ code, classifySendFailure err = some ⟨.hard, code⟩

/-- The mailbox is full. -/
def MailboxFull (err : Thrown) : Prop := classifySendFailure err = some ⟨.soft, MAILBOX_FULL⟩

/-- The attempt is the last one. -/
def LastAttempt (env : DecisionEnv) (email : ClaimedEmail) (sent : SentAttempt) : Prop :=
  ∃ values events status state, decideRowOutcome env email sent = .terminal values events status state

/-- The bounce comes from an entry, and one that a failed transaction left is of a reply that
allows it. -/
def Justified (env : DecisionEnv) (email : ClaimedEmail) (sent : SentAttempt) (b : InlineBounce) :
    Prop :=
  ∃ key group, sent.deliveryState.get? key = some group ∧ b.recipient ∈ group.recipients ∧
    ∀ entry recipients err info, group = failedEntry entry recipients err info →
      (b.bounceType = .hard ∧ RefusedForGood err) ∨
        (b.bounceType = .soft ∧ MailboxFull err ∧ LastAttempt env email sent)

/-- Between two databases, only these bounces were filed. -/
structure FiledFrom (toLowerCase : Text → Text) (apiKeyId : Text) (bounces : List InlineBounce)
    (db db' : QueueDb) : Prop where
  suppressions : ∀ key, db'.list.suppressions.find? key ≠ db.list.suppressions.find? key →
    ∃ b ∈ bounces, key = (apiKeyId, normaliseEmail toLowerCase b.recipient)
  outbox : ∃ new, db'.outbox = db.outbox ++ new ∧
    ∀ event ∈ new, ∀ r, event.bounced? = some r → ∃ b ∈ bounces, r = b.recipient

/-- Only a permanent reply suppresses a recipient for good. -/
structure PermanentOnly (toLowerCase : Text → Text) : Prop where
  /-- A hard or policy classification is of a reply whose first line is of class 5. -/
  classified : ∀ err kind code, classifySendFailure err = some ⟨kind, code⟩ → kind ≠ .soft →
    ∃ e line, err = .error e ∧ matchReplyLine (replyOf e) = some line ∧ replyClass line = '5'
  /-- Without a reply there is no classification, whatever the text. -/
  silent : ∀ e, e.responseCode = none → (∀ line ∈ lines e.message, startsReply line = false) →
    classifySendFailure (.error e) = none
  /-- An entry fails only by such a classification. -/
  failed : ∀ entry recipients err info, (failedEntry entry recipients err info).status = .failed →
    ∃ kind code, classifySendFailure err = some ⟨kind, code⟩ ∧ kind ≠ .soft
  /-- Every bounce of an attempt is justified by its reply. -/
  bounces : ∀ env email sent, ∀ b ∈ bouncesOf env email sent, Justified env email sent b
  /-- Nothing else is suppressed or announced with the outcome. -/
  recorded : ∀ workerId env email claim sent fate tx db,
    FiledFrom toLowerCase email.apiKeyId (bouncesOf env email sent) db
      (recordSendOutcome toLowerCase workerId env email claim sent fate tx db)

/-! ## Classification -/

theorem classifyLine_eq_some {line : ReplyLine} {kind : FailureKind} {code : Text}
    (h : classifyLine line = some ⟨kind, code⟩) (hk : kind ≠ .soft) : replyClass line = '5' := by
  unfold classifyLine at h
  dsimp only at h
  split_ifs at h with hsoft hfive hpolicy
  · cases h
    exact absurd rfl hk
  · exact not_not.mp hfive
  · exact not_not.mp hfive

theorem classifySendFailure_eq_some {err : Thrown} {kind : FailureKind} {code : Text}
    (h : classifySendFailure err = some ⟨kind, code⟩) (hk : kind ≠ .soft) :
    ∃ e line, err = .error e ∧ matchReplyLine (replyOf e) = some line ∧ replyClass line = '5' := by
  cases err with
  | error e =>
    obtain ⟨line, hline, hclass⟩ := Option.bind_eq_some_iff.mp h
    exact ⟨e, line, rfl, hline, classifyLine_eq_some hclass hk⟩
  | text _ => cases h
  | other => cases h

/-- A line that starts with no reply code is no reply. -/
theorem replyLine_eq_none {line : Text} (h : startsReply line = false) : replyLine line = none := by
  rcases line with _ | ⟨a, _ | ⟨b, _ | ⟨c, _ | ⟨sep, rest⟩⟩⟩⟩
  · rfl
  · rfl
  · rfl
  · rfl
  · exact if_neg fun hstarts => Bool.false_ne_true (h.symm.trans hstarts)

theorem classifySendFailure_silent {e : ErrorObject} (hcode : e.responseCode = none)
    (hlines : ∀ line ∈ lines e.message, startsReply line = false) :
    classifySendFailure (.error e) = none := by
  have hnone : matchReplyLine (replyOf e) = none := by
    unfold replyOf
    rw [hcode]
    exact List.findSome?_eq_none_iff.mpr fun line hm => replyLine_eq_none (hlines line hm)
  show (matchReplyLine (replyOf e)).bind classifyLine = none
  rw [hnone]
  rfl

theorem failed_failedEntry {entry : DeliveryGroup} {recipients : List Text} {err : Thrown}
    {info : OutcomeInfo} (h : (failedEntry entry recipients err info).status = .failed) :
    ∃ kind code, classifySendFailure err = some ⟨kind, code⟩ ∧ kind ≠ .soft := by
  have hstatus : failureStatus (classifySendFailure err) = .failed := h
  cases hc : classifySendFailure err with
  | none => rw [hc] at hstatus; cases hstatus
  | some parsed =>
    obtain ⟨kind, code⟩ := parsed
    refine ⟨kind, code, rfl, fun hsoft => ?_⟩
    subst hsoft
    rw [hc] at hstatus
    cases hstatus

/-! ## The bounces of an attempt -/

variable {env : DecisionEnv} {email : ClaimedEmail} {sent : SentAttempt}

/-- The classification an entry stores is that of its error. -/
theorem failureKind_failedEntry {entry : DeliveryGroup} {recipients : List Text} {err : Thrown}
    {info : OutcomeInfo} :
    (failedEntry entry recipients err info).failureKind =
      (classifySendFailure err).map ParsedSmtpError.kind := rfl

theorem failureOf_failedEntry {entry : DeliveryGroup} {recipients : List Text} {err : Thrown}
    {info : OutcomeInfo} (h : (failedEntry entry recipients err info).status = .failed) :
    failureOf (failedEntry entry recipients err info) = classifySendFailure err := by
  obtain ⟨kind, code, hc, _⟩ := failed_failedEntry h
  unfold failureOf
  rw [failureKind_failedEntry, hc]
  show some (ParsedSmtpError.mk kind (((classifySendFailure err).map ParsedSmtpError.code).getD [])) = _
  rw [hc]
  rfl

theorem justified_of_hardBounce {b : InlineBounce} (h : b ∈ hardBounces sent) :
    Justified env email sent b := by
  obtain ⟨⟨key, group⟩, hrow, hb⟩ := List.mem_flatMap.mp h
  dsimp only at hb
  split_ifs at hb with hskip
  · cases hb
  · obtain ⟨hfailed, _⟩ := not_or.mp hskip
    rw [not_not] at hfailed
    split at hb
    · rename_i code hfail
      obtain ⟨r, hr, rfl⟩ := List.mem_map.mp hb
      refine ⟨key, group, Table.get?_eq_some_iff.mpr hrow, hr, fun entry recipients err info hg => ?_⟩
      subst hg
      exact .inl ⟨rfl, code, (failureOf_failedEntry hfailed).symm.trans hfail⟩
    · cases hb

theorem justified_of_softBounce {attemptState finalState : DeliveryState} {b : InlineBounce}
    (hstate : attemptState = sent.deliveryState) (hlast : LastAttempt env email sent)
    (h : b ∈ exhaustedSoftBounces attemptState finalState) : Justified env email sent b := by
  subst hstate
  obtain ⟨⟨key, group⟩, hrow, hb⟩ := List.mem_flatMap.mp h
  dsimp only at hb
  split_ifs at hb with hskip
  · cases hb
  · obtain ⟨_, hskip⟩ := not_or.mp hskip
    obtain ⟨_, hskip⟩ := not_or.mp hskip
    obtain ⟨hkind, hcode⟩ := not_or.mp hskip
    rw [not_not] at hkind hcode
    obtain ⟨r, hr, rfl⟩ := List.mem_map.mp hb
    refine ⟨key, group, Table.get?_eq_some_iff.mpr hrow, hr, fun entry recipients err info hg => ?_⟩
    subst hg
    have hkind' : (classifySendFailure err).map ParsedSmtpError.kind = some .soft := hkind
    have hcode' : (classifySendFailure err).map ParsedSmtpError.code = some MAILBOX_FULL := hcode
    obtain ⟨⟨kind, code⟩, hc, hsoft⟩ := Option.map_eq_some_iff.mp hkind'
    rw [hc] at hcode'
    obtain rfl : code = MAILBOX_FULL := Option.some.inj hcode'
    obtain rfl : kind = .soft := hsoft
    exact .inr ⟨rfl, hc, hlast⟩

theorem justified_of_mem_bouncesOf {b : InlineBounce} (h : b ∈ bouncesOf env email sent) :
    Justified env email sent b := by
  unfold bouncesOf at h
  rcases List.mem_append.mp h with h | h
  · exact justified_of_hardBounce h
  · cases hout : decideRowOutcome env email sent with
    | terminal values events status state =>
      rw [hout] at h
      exact justified_of_softBounce rfl ⟨values, events, status, state, hout⟩ h
    | deferred => rw [hout] at h; cases h
    | retry => rw [hout] at h; cases h

/-! ## The transactions -/

section Transactions

variable {toLowerCase : Text → Text} {apiKeyId : Text} {bounces : List InlineBounce} {db db' : QueueDb}
  {workerId : Text} {claim : Claim} {withEvents : Bool} {tx : TxEnv}

theorem filedFrom_refl : FiledFrom toLowerCase apiKeyId bounces db db :=
  ⟨fun _ h => absurd rfl h, [], (List.append_nil _).symm, fun _ h => (by cases h)⟩

theorem FiledFrom.trans {db'' : QueueDb} (h : FiledFrom toLowerCase apiKeyId bounces db db')
    (h' : FiledFrom toLowerCase apiKeyId bounces db' db'') :
    FiledFrom toLowerCase apiKeyId bounces db db'' := by
  refine ⟨fun key hne => ?_, ?_⟩
  · by_cases heq : db'.list.suppressions.find? key = db.list.suppressions.find? key
    · exact h'.suppressions key fun h => hne (h.trans heq)
    · exact h.suppressions key heq
  · obtain ⟨new, hout, hnew⟩ := h.outbox
    obtain ⟨new', hout', hnew'⟩ := h'.outbox
    refine ⟨new ++ new', by rw [hout', hout, List.append_assoc], fun event hm => ?_⟩
    rcases List.mem_append.mp hm with hm | hm
    · exact hnew event hm
    · exact hnew' event hm

/-- A bounce that is added writes under its own address. -/
theorem find?_addFromBounce {list : SuppressionList.Db} {input : SuppressionList.AddFromBounceInput}
    {id : Text} {now : Time} {p : SuppressionList.Db × SuppressionList.BounceSuppressionResult}
    (h : SuppressionList.addFromBounce toLowerCase list apiKeyId input id now = .ok p)
    {key : Text × Text} (hk : key ≠ (apiKeyId, normaliseEmail toLowerCase input.email)) :
    p.1.suppressions.find? key = list.suppressions.find? key := by
  unfold SuppressionList.addFromBounce at h
  cases hup : list.upsert (SuppressionList.addFromBounceUpsert toLowerCase apiKeyId input id now) with
  | error e =>
    rw [hup] at h
    cases h
  | ok q =>
    rw [hup] at h
    obtain rfl := Except.ok.inj h
    show q.1.suppressions.find? key = _
    rw [SuppressionList.Db.upsert_ok hup]
    exact SuppressionList.Upsert.exec_findRow_ne _ _ hk

/-- One bounce is filed under its address. -/
theorem filedFrom_fileBounce {bounce : InlineBounce} (hb : bounce ∈ bounces)
    (h : fileBounce toLowerCase email withEvents tx db bounce = .ok db') :
    FiledFrom toLowerCase email.apiKeyId bounces db db' := by
  unfold fileBounce at h
  cases hadd : SuppressionList.addFromBounce toLowerCase db.list email.apiKeyId
      { email := bounce.recipient
        bounceType := bounce.bounceType
        diagnosticCode := some bounce.code
        sourceEmailId := some email.id
        expiresAt := if bounce.bounceType = .soft then
            some (tx.appNow + SuppressionList.SOFT_BOUNCE_WINDOW_MS)
          else none } (tx.newId bounce.recipient) tx.appNow with
  | error e =>
    rw [hadd] at h
    cases h
  | ok p =>
    rw [hadd] at h
    obtain rfl := Except.ok.inj h
    refine ⟨fun key hne => ⟨bounce, hb, ?_⟩, _, rfl, fun event hm r hr => ?_⟩
    · by_contra hk
      exact hne (find?_addFromBounce hadd hk)
    · split_ifs at hm
      · rw [List.mem_singleton.mp hm] at hr
        exact ⟨bounce, hb, (Option.some.inj hr).symm⟩
      · cases hm

theorem filedFrom_fileBounces {l : List InlineBounce} (hl : ∀ b ∈ l, b ∈ bounces)
    (h : l.foldlM (fileBounce toLowerCase email withEvents tx) db = .ok db') :
    FiledFrom toLowerCase email.apiKeyId bounces db db' := by
  induction l generalizing db with
  | nil =>
    obtain rfl := Except.ok.inj h
    exact filedFrom_refl
  | cons b l ih =>
    rw [List.foldlM_cons] at h
    cases hfile : fileBounce toLowerCase email withEvents tx db b with
    | error e =>
      rw [hfile] at h
      cases h
    | ok db₁ =>
      rw [hfile] at h
      exact (filedFrom_fileBounce (hl b List.mem_cons_self) hfile).trans
        (ih (fun b' hb' => hl b' (List.mem_cons_of_mem _ hb')) h)

/-- The release files nothing, and its events announce no bounce. -/
theorem filedFrom_releaseRowWithEvents {values : RowValues} {events : List WebhookEvent}
    (hevents : ∀ event ∈ events, event.bounced? = none) :
    FiledFrom toLowerCase apiKeyId bounces db
      (releaseRowWithEvents workerId claim values events tx db).1 := by
  cases hheld : heldBy workerId claim db.row with
  | true =>
    rw [releaseRowWithEvents_of_held hheld]
    refine ⟨fun _ h => absurd rfl h, events, rfl, fun event hm r hr => ?_⟩
    rw [hevents event hm] at hr
    cases hr
  | false =>
    rw [releaseRowWithEvents_of_not_held hheld]
    exact filedFrom_refl

/-- **One transaction** files bounces of the attempt, and no other. -/
theorem filedFrom_writeOutcome {p : QueueDb × Bool}
    (h : writeOutcome toLowerCase workerId env email claim sent withEvents tx db = .ok p) :
    FiledFrom toLowerCase email.apiKeyId (bouncesOf env email sent) db p.1 := by
  unfold writeOutcome at h
  cases hfile : (bouncesOf env email sent).foldlM (fileBounce toLowerCase email withEvents tx) db with
  | error e =>
    rw [hfile] at h
    cases h
  | ok db₁ =>
    rw [hfile] at h
    obtain rfl := Except.ok.inj h
    refine (filedFrom_fileBounces (fun b hb => hb) hfile).trans
      (filedFrom_releaseRowWithEvents fun event hm => ?_)
    split_ifs at hm
    · exact bounced?_of_mem_events hm
    · cases hm

theorem filedFrom_writesFrom {fate : ℕ → Fate} {txs : ℕ → TxEnv} (n left : ℕ) :
    FiledFrom toLowerCase email.apiKeyId (bouncesOf env email sent) db
      (writesFrom toLowerCase workerId env email claim sent fate txs n left db) := by
  induction left generalizing n db with
  | zero => exact filedFrom_refl
  | succ left ih =>
    unfold writesFrom
    cases hw : writeOutcome toLowerCase workerId env email claim sent (n < OUTCOME_TRIES) (txs n) db with
    | error e => cases fate n <;> exact ih (n + 1)
    | ok p =>
      cases fate n with
      | rolledBack => exact ih (n + 1)
      | committed => exact filedFrom_writeOutcome hw
      | ackLost => exact (filedFrom_writeOutcome hw).trans (ih (n + 1))

end Transactions

/-- A temporary three-digit code with a permanent enhanced one. -/
def greylisted : ErrorObject where
  message := "Recipient command failed".toList
  responseCode := some 450
  response := some "450 5.1.1 User unknown".toList

/-- A full mailbox. -/
def mailboxFull : ErrorObject where
  message := "Recipient command failed".toList
  responseCode := some 452
  response := some "452 4.2.2 Mailbox full".toList

/-- An attempt that met it. -/
def fullAttempt : SentAttempt where
  deliveryState := Table.ofEntries [("mx.x.org", failedEntry
    { status := .retry, recipients := ["a@x.org"], attempts := 11 } ["a@x.org"] (.error mailboxFull)
      ⟨none, none, none, 0⟩)]
  messageId := "<1@from.org>"
  priorStatuses := Table.empty
  deferred := none

/-- An email three days old. -/
def oldEmail : ClaimedEmail where
  id := "msg_1"
  apiKeyId := "key"
  fromAddress := "s@from.org"
  toAddress := "a@x.org"
  cc := none
  bcc := none
  subject := "Hello"
  tags := none
  status := .sending
  attempts := 12
  lastError := none
  messageId := none
  deliveryState := none
  sentAt := none
  nextAttemptAt := 0
  lockedBy := some "w1"
  leaseUntil := none
  createdAt := 0
  updatedAt := 0
  deletedAt := none
  ageMs := 259200000

end BunMail.Emails
