import BunMail.Emails.Conservation
import BunMail.Emails.QueueRun
import BunMail.Emails.SendReads

/-!
# Outages around a send

A database call that throws inside the `try` ends the row as `failed`, with `email.failed` and without
the bytes of its attachments, although nothing is wrong with the email.  A claim loses no mail to an
outage exactly when no such call fails, or the transaction of the `catch` fails as well.
-/

namespace BunMail.Emails.Reads

open Recipients Faults

/-! ## What is said of a claim -/

/-- A row and its claim. -/
structure ClaimedRow (workerId : Text) where
  row : EmailRow
  now : Time
  appNow : Time
  email : ClaimedEmail
  claimed : claimNextEmails workerId now appNow row = some email

section Outages

variable (env : Setting) (c : ClaimedRow env.workerId)

/-- The claim of the row. -/
def ClaimedRow.claim {workerId : Text} (c : ClaimedRow workerId) : Claim := ⟨c.email.id, c.email.attempts⟩

/-- What is stored once it is claimed. -/
def ClaimedRow.stored {workerId : Text} (c : ClaimedRow workerId) (list : SuppressionList.Db)
    (outbox : List WebhookEvent) (attachments : List Attachment) : Store :=
  ⟨⟨c.email.toEmailRow, list, outbox⟩, attachments⟩

/-- The email has no valid recipient: none in its fields, or none on file after an attempt. -/
def NoValidRecipient : Prop :=
  (c.email.deliveryState = none ∧
      parseRecipients env.toLowerCase c.email.toAddress c.email.cc c.email.bcc = []) ∨
    ∃ state, c.email.deliveryState = some state ∧ state.rows = []

/-- The row ends as `failed`, with its event, through the `catch`. -/
def FailedByCatch (s₀ : Store) (w : World DbCall Store) : Prop :=
  (.failOnError, true) ∈ w.calls ∧ w.state.queue.row.status = .failed ∧
    ∃ event ∈ w.state.queue.outbox.drop s₀.queue.outbox.length, event.isFailed = true

/-- Nothing is lost: the row can be claimed again, and is as before the claim. -/
structure Unharmed (s₀ s : Store) : Prop where
  claimable : ∃ now, claimable now s.queue.row = true
  deliveryState : s.queue.row.deliveryState = c.row.deliveryState
  attachments : s.attachments = s₀.attachments
  outbox : s.queue.outbox = s₀.queue.outbox

/-- A temporary failure never fails the email for good. -/
structure KeepsMail (s₀ : Store) (w : World DbCall Store) : Prop where
  /-- The `catch` fails an email without valid recipients, or one whose attachments were read and have
  lost bytes. -/
  input : FailedByCatch s₀ w → NoValidRecipient env c ∨
    ((.loadAttachments, true) ∈ w.calls ∧ ∃ a ∈ s₀.attachments, a.content = none)
  /-- A read that throws leaves everything as it was. -/
  outage : ∀ k, k.isRead = true → (k, false) ∈ w.calls → Unharmed env c s₀ w.state

/-- No database call of the `try` fails, or the transaction of the `catch` fails as well; or it was
only the hold of an email without valid recipients. -/
def OutageContained (found : ℕ → Option Found) (s₀ : Store) : Prop :=
  ∀ first k w, found 0 = some first → first.keyActive = true →
    tryBody env c.email c.claim found ⟨s₀, [(.findApiKeyById, true)]⟩ = (.error (.database k), w) →
    found w.calls.length = none ∨ (k = .holdForDkimKey ∧ NoValidRecipient env c)

/-! ## What the parts call, and what they read -/

variable {env c} {email : ClaimedEmail} {claim : Claim}

/-- The call is a read. -/
def IsRead (k : DbCall) : Prop := k.isRead = true

/-- Nothing is thrown but a database error. -/
def Never (_ : Thrown) : Prop := False

/-- Something else than a database error. -/
def NotDatabase (e : Thrown) : Prop := ∀ k, e ≠ .database k

theorem reads_read {α : Type} {k : DbCall} {answer : Found → Store → α} : Reads (read k answer) :=
  reads_call

theorem honest_read {α : Type} {k : DbCall} {answer : Found → Store → α} (hk : k.isRead = true) :
    Honest .database IsRead Never (read k answer) := honest_call hk

theorem reads_resolveDomainForEmail : Reads (resolveDomainForEmail env email) :=
  reads_pure.ite reads_read

theorem honest_resolveDomainForEmail :
    Honest .database (fun k => k = .resolveDomain) Never (resolveDomainForEmail env email) := by
  unfold resolveDomainForEmail
  split_ifs
  · exact honest_pure
  · exact honest_call rfl

theorem reads_keptOf (recipients : List Text) : Reads (keptOf recipients) := by
  induction recipients with
  | nil => exact reads_pure
  | cons recipient rest ih => exact reads_read.bind fun _ => ih.bind fun _ => reads_pure

theorem honest_keptOf (recipients : List Text) :
    Honest .database IsRead Never (keptOf recipients) := by
  induction recipients with
  | nil => exact honest_pure
  | cons recipient rest ih => exact (honest_read rfl).bind fun _ => ih.bind fun _ => honest_pure

theorem reads_dropFromGroup {group : DeliveryGroup} : Reads (dropFromGroup env group) :=
  reads_pure.ite ((reads_keptOf _).bind fun _ => reads_pure)

theorem honest_dropFromGroup {group : DeliveryGroup} :
    Honest .database IsRead Never (dropFromGroup env group) := by
  unfold dropFromGroup
  split_ifs
  · exact honest_pure
  · exact (honest_keptOf _).bind fun _ => honest_pure

theorem reads_dropFromGroups (entries : List (Text × DeliveryGroup)) :
    Reads (dropFromGroups env entries) := by
  induction entries with
  | nil => exact reads_pure
  | cons entry rest ih => exact reads_dropFromGroup.bind fun _ => ih.bind fun _ => reads_pure

theorem honest_dropFromGroups (entries : List (Text × DeliveryGroup)) :
    Honest .database IsRead Never (dropFromGroups env entries) := by
  induction entries with
  | nil => exact honest_pure
  | cons entry rest ih => exact honest_dropFromGroup.bind fun _ => ih.bind fun _ => honest_pure

theorem reads_existingState : Reads (existingState env email) := by
  unfold existingState
  cases email.deliveryState with
  | none => exact reads_pure
  | some state => exact (reads_dropFromGroups _).bind fun _ => reads_pure

theorem honest_existingState : Honest .database IsRead Never (existingState env email) := by
  unfold existingState
  cases email.deliveryState with
  | none => exact honest_pure
  | some state => exact (honest_dropFromGroups _).bind fun _ => honest_pure

theorem reads_loadOutboundAttachments : Reads loadOutboundAttachments :=
  reads_read.bind fun _ => reads_check.bind fun _ => reads_pure

theorem honest_loadOutboundAttachments :
    Honest .database IsRead NotDatabase loadOutboundAttachments := by
  refine ((honest_read rfl).mono (fun _ h => h) fun _ h => h.elim).bind fun loaded =>
    (honest_check fun e he k hk => ?_).bind fun _ => honest_pure
  subst hk
  cases hm : missingBytes loaded with
  | none => rw [hm] at he; cases he
  | some a => rw [hm] at he; cases he

theorem reads_deliverEmail {state : Option DeliveryState} : Reads (deliverEmail env email state) :=
  fun _ _ => rfl

theorem honest_deliverEmail {S : DbCall → Prop} {state : Option DeliveryState} :
    Honest .database S NotDatabase (deliverEmail env email state) := by
  intro found w
  refine endsHonestly_refl fun e he k hk => ?_
  subst hk
  unfold deliverEmail at he
  cases hs : sendMail env.toLowerCase (sendOptions env email state) env.mailer with
  | ok result => rw [hs] at he; cases he
  | error e => cases e <;> (rw [hs] at he; cases he)

theorem reads_attempt : Reads (attempt env email) :=
  reads_existingState.bind fun _ => reads_loadOutboundAttachments.bind fun _ =>
    reads_deliverEmail.bind fun _ => reads_pure

theorem honest_attempt : Honest .database IsRead NotDatabase (attempt env email) :=
  (honest_existingState.mono (fun _ h => h) fun _ h => h.elim).bind fun _ =>
    honest_loadOutboundAttachments.bind fun _ => honest_deliverEmail.bind fun _ => honest_pure

/-! ## Emails without a recipient -/

theorem eq_nil_of_ofEntries {entries : List (Text × DeliveryGroup)}
    (h : (Table.ofEntries entries).rows = []) : entries = [] := by
  cases entries using List.reverseRecOn with
  | nil => rfl
  | append_singleton entries e =>
    have hget : (Table.ofEntries (entries ++ [e])).get? e.1 = some e.2 := by
      rw [Table.ofEntries_concat, Table.get?_put_self]
    have hmem := Table.get?_eq_some_iff.mp hget
    rw [h] at hmem
    cases hmem

theorem eq_nil_of_groupBy {α : Type} {key : α → Text} {l : List α}
    (h : (Table.groupBy key l).rows = []) : l = [] := by
  have hperm := Table.perm_groupBy key l
  rw [h, List.flatMap_nil] at hperm
  exact hperm.nil_eq.symm

theorem domainPieces_ne_nil (toLowerCase : Text → Text) (entry : Text × DeliveryGroup) :
    domainPieces toLowerCase entry ≠ [] := by
  obtain ⟨key, group⟩ := entry
  unfold domainPieces
  dsimp only
  split_ifs with hc hone
  · exact List.cons_ne_nil _ _
  · exact List.cons_ne_nil _ _
  · intro hnil
    exact hc (.inr (.inr (.inr (eq_nil_of_groupBy (List.map_eq_nil_iff.mp hnil)))))

theorem eq_nil_of_withDomains {toLowerCase : Text → Text} {state : DeliveryState}
    (h : (withDomains toLowerCase state).rows = []) : state.rows = [] := by
  have hflat := eq_nil_of_ofEntries h
  cases hrows : state.rows with
  | nil => rfl
  | cons entry rest =>
    rw [hrows, List.flatMap_cons] at hflat
    exact absurd (List.append_eq_nil_iff.mp hflat).1 (domainPieces_ne_nil _ _)

/-- What the mailer means by no valid recipients. -/
theorem no_recipients_of_sendMail {state : Option DeliveryState}
    (h : sendMail env.toLowerCase (sendOptions env email state) env.mailer = .error .noRecipients) :
    (state = none ∧ parseRecipients env.toLowerCase email.toAddress email.cc email.bcc = []) ∨
      ∃ old, state = some old ∧ old.rows = [] := by
  have hrows : (priorState env.toLowerCase (sendOptions env email state)).rows = [] := by
    by_contra hne
    unfold sendMail at h
    rw [if_neg hne] at h
    dsimp only at h
    split at h <;> cases h
  cases state with
  | none =>
    have hinit : (buildInitialState env.toLowerCase email.toAddress email.cc email.bcc).rows = [] := hrows
    rw [rows_buildInitialState] at hinit
    exact .inl ⟨rfl, eq_nil_of_groupBy (List.map_eq_nil_iff.mp hinit)⟩
  | some old => exact .inr ⟨old, rfl, eq_nil_of_withDomains hrows⟩

variable {found : ℕ → Option Found} {w : World DbCall Store}

/-- No group is lost with the recipients that are dropped. -/
theorem wp_dropFromGroups (entries : List (Text × DeliveryGroup)) :
    wp found (dropFromGroups env entries)
      (fun r _ => ∀ groups, r = .ok groups → groups.length = entries.length) w := by
  induction entries generalizing w with
  | nil =>
    intro groups hr
    rw [← Except.ok.inj hr]
  | cons entry rest ih =>
    refine wp_bind.mpr ⟨fun group _ => wp_bind.mpr (wp.mono ih fun r _ hlen => ⟨fun groups hr => ?_,
      fun _ _ _ hr => (by cases hr)⟩), fun _ _ _ hr => (by cases hr)⟩
    intro all hall
    rw [← Except.ok.inj hall, List.length_cons, List.length_cons, hlen groups hr]

/-- The state of a retry has groups exactly as the one on file. -/
theorem wp_existingState :
    wp found (existingState env email) (fun r _ => ∀ state, r = .ok state →
      (state = none → email.deliveryState = none) ∧
        ∀ new, state = some new → new.rows = [] →
          ∃ old, email.deliveryState = some old ∧ old.rows = []) w := by
  unfold existingState
  cases email.deliveryState with
  | none =>
    intro state hr
    obtain rfl := Except.ok.inj hr
    exact ⟨fun _ => rfl, fun _ hnew => (by cases hnew)⟩
  | some old =>
    refine wp_bind.mpr (wp.mono (wp_dropFromGroups old.rows) fun r _ hlen => ⟨fun groups hr => ?_,
      fun _ _ _ hr => (by cases hr)⟩)
    intro state hstate
    obtain rfl := Except.ok.inj hstate
    refine ⟨fun hnone => (by cases hnone), fun new hnew hrows => ⟨old, rfl, ?_⟩⟩
    obtain rfl := Option.some.inj hnew
    have hgroups := hlen groups hr
    rw [eq_nil_of_ofEntries hrows] at hgroups
    exact List.length_eq_zero_iff.mp hgroups.symm

/-! ## What the `try` throws -/

/-- An input error has its reason. -/
structure ThrownFor (env : Setting) (email : ClaimedEmail) (s₀ : Store)
    (r : Except Thrown (Option SentAttempt)) (w : World DbCall Store) : Prop where
  recipients : r = .error .noRecipients →
    (email.deliveryState = none ∧
        parseRecipients env.toLowerCase email.toAddress email.cc email.bcc = []) ∨
      ∃ state, email.deliveryState = some state ∧ state.rows = []
  attachments : ∀ position, r = .error (.attachmentMissing position) →
    (.loadAttachments, true) ∈ w.calls ∧ ∃ a ∈ s₀.attachments, a.content = none

/-- A database error is no input error. -/
theorem thrownFor_database {s₀ : Store} {w' : World DbCall Store} (k : DbCall) :
    ThrownFor env email s₀ (.error (.database k)) w' :=
  ⟨fun hr => (by cases hr), fun _ hr => (by cases hr)⟩

theorem thrownFor_ok {s₀ : Store} {w' : World DbCall Store} (sent : Option SentAttempt) :
    ThrownFor env email s₀ (.ok sent) w' :=
  ⟨fun hr => (by cases hr), fun _ hr => (by cases hr)⟩

/-- What the attachments throw. -/
theorem wp_loadOutboundAttachments :
    wp found loadOutboundAttachments
      (fun r w' => ∀ e, r = .error e → ThrownFor env email w.state (.error e) w') w := by
  refine wp_bind.mpr (wp_call.mpr ⟨fun _ => ⟨fun _ hr => (by cases hr), fun e he e' he' => ?_⟩,
    fun _ _ => ⟨fun loaded hloaded => ?_, fun _ he => (by cases he)⟩⟩)
  · cases he
    cases he'
    exact thrownFor_database _
  · obtain rfl := Except.ok.inj hloaded
    refine wp_bind.mpr (wp_check.mpr ⟨fun _ => ⟨fun _ _ _ he => (by cases he),
      fun _ he => (by cases he)⟩, fun e he => ⟨fun _ hr => (by cases hr), fun e' he' e'' he'' => ?_⟩⟩)
    cases he'
    cases he''
    obtain ⟨a, ha, rfl⟩ := Option.map_eq_some_iff.mp he
    have hfind : (w.state.attachments.find? fun a => a.content.isNone) = some a := ha
    refine ⟨fun hr => (by cases hr), fun _ _ => ⟨?_, a, List.mem_of_find?_eq_some hfind, ?_⟩⟩
    · exact List.mem_append_right _ (List.mem_singleton_self _)
    · simpa using List.find?_some hfind

/-- **What an attempt throws has its reason.** -/
theorem wp_attempt : wp found (attempt env email) (ThrownFor env email w.state) w := by
  have hread : (existingState env email found w).2.state = w.state := reads_existingState found w
  refine wp_bind.mpr ⟨fun state hstate => ?_, fun e he => ?_⟩
  · have hgroups := @wp_existingState env email found w
    unfold wp at hgroups
    refine wp_bind.mpr (wp.mono wp_loadOutboundAttachments fun r w' hload => ⟨fun _ _ => ?_,
      fun e he => hread ▸ hload e he⟩)
    refine wp_bind.mpr ⟨fun sent _ => thrownFor_ok _, fun e he => ⟨fun hr => ?_, fun position hr => ?_⟩⟩
    · cases hr
      have hsend : sendMail env.toLowerCase (sendOptions env email state) env.mailer =
          .error .noRecipients := by
        unfold deliverEmail at he
        cases hs : sendMail env.toLowerCase (sendOptions env email state) env.mailer with
        | ok result => rw [hs] at he; cases he
        | error e => cases e with
          | noRecipients => rfl
          | dkimSigningFailed domain => rw [hs] at he; cases he
      obtain ⟨hnone, hsome⟩ := hgroups state hstate
      rcases no_recipients_of_sendMail hsend with ⟨hs, hparse⟩ | ⟨old, hs, hrows⟩
      · exact .inl ⟨hnone hs, hparse⟩
      · exact .inr (hsome old hs hrows)
    · cases hr
      unfold deliverEmail at he
      cases hs : sendMail env.toLowerCase (sendOptions env email state) env.mailer with
      | ok result => rw [hs] at he; cases he
      | error e => cases e <;> (rw [hs] at he; cases he)
  · have hends := @honest_existingState env email found w
    rcases hends with ⟨_, _, _, hnever⟩ | ⟨_, k, _, _, _, hk⟩
    · exact (hnever e he).elim
    · rw [he] at hk
      cases hk
      exact thrownFor_database k

/-! ## The `try` -/

/-- The release of a held email. -/
def IsHold (k : DbCall) : Prop := k = .holdForDkimKey

/-- What the `try` calls. -/
def InTry (k : DbCall) : Prop := IsRead k ∨ IsHold k

theorem honest_write {k : DbCall} {S : DbCall → Prop} {E : Thrown → Prop} {effect : Effect} (hk : S k) :
    Honest .database S E (write env claim k effect) := by
  cases effect with
  | record _ => exact honest_pure
  | release values events => exact honest_call hk

theorem honest_hold {E : Thrown → Prop} {domainName : Text} {problem : DkimProblem} :
    Honest .database IsHold E (hold env email claim domainName problem) :=
  (honest_write (show IsHold .holdForDkimKey from rfl)).bind fun _ => honest_pure

theorem honest_tryBody : Honest .database InTry NotDatabase (tryBody env email claim) := by
  refine (honest_resolveDomainForEmail.mono (fun _ h => .inl (h ▸ rfl)) fun _ h => h.elim).bind fun domain => ?_
  unfold sendFrom
  cases domain.filter fun d => d.dkimKeyUnreadable && env.production with
  | none => exact honest_attempt.mono (fun _ h => .inl h) fun _ h => h
  | some d => exact honest_hold.mono (fun _ h => .inr h) fun _ h => h

theorem wp_write {k : DbCall} {values : RowValues} {events : List WebhookEvent}
    {Q : Except Thrown Unit → World DbCall Store → Prop} :
    wp found (write env claim k (.release values events)) Q w ↔
      (found w.calls.length = none →
        Q (.error (.database k)) { w with calls := w.calls ++ [(k, false)] }) ∧
      ∀ f, found w.calls.length = some f →
        Q (.ok ()) ⟨w.state.release env.workerId claim values events f.tx, w.calls ++ [(k, true)]⟩ :=
  wp_call

/-- A write that fails changes nothing. -/
theorem wp_hold {domainName : Text} {problem : DkimProblem} :
    wp found (hold env email claim domainName problem)
      (fun r w' => ∀ e, r = .error e → w'.state = w.state ∧ ∃ k, e = .database k) w := by
  unfold hold
  generalize Emails.holdForDkimKey env.decision email claim domainName problem = effect
  cases effect with
  | record _ => exact wp_bind.mpr ⟨fun _ _ _ he => (by cases he), fun _ he => (by cases he)⟩
  | release values events =>
    refine wp_bind.mpr (wp_write.mpr ⟨fun _ => ⟨fun _ hr => (by cases hr), fun e he e' he' => ?_⟩,
      fun _ _ => ⟨fun _ _ _ he => (by cases he), fun _ he => (by cases he)⟩⟩)
    cases he
    cases he'
    exact ⟨rfl, _, rfl⟩

/-- What the `try` leaves to the `catch`: nothing is changed, and an input error has its reason. -/
theorem wp_tryBody :
    wp found (tryBody env email claim)
      (fun r w' => ∀ e, r = .error e → w'.state = w.state ∧ ThrownFor env email w.state (.error e) w')
      w := by
  have hdomain : (resolveDomainForEmail env email found w).2.state = w.state :=
    reads_resolveDomainForEmail found w
  refine wp_bind.mpr ⟨fun domain _ => ?_, fun e he e' he' => ?_⟩
  · rw [← hdomain]
    unfold sendFrom
    cases domain.filter fun d => d.dkimKeyUnreadable && env.production with
    | none =>
      refine wp.mono wp_attempt.run fun r w' ⟨hthrown, hrun⟩ e he => ⟨?_, he ▸ hthrown⟩
      have hstate := @reads_attempt env email found
        (resolveDomainForEmail env email found w).2
      rw [hrun] at hstate
      exact hstate
    | some d =>
      refine wp.mono wp_hold fun r w' hheld e he => ?_
      obtain ⟨hstate, k, rfl⟩ := hheld e he
      exact ⟨hstate, thrownFor_database k⟩
  · cases he'
    refine ⟨hdomain, ?_⟩
    have hends := @honest_resolveDomainForEmail env email found w
    rcases hends with ⟨_, _, _, hnever⟩ | ⟨_, k, _, _, _, hk⟩
    · exact (hnever e he).elim
    · rw [he] at hk
      cases hk
      exact thrownFor_database k

/-! ## The claim keeps the mail -/

/-- No email was failed by the `catch`, and no read failed. -/
structure Clean (calls : List (DbCall × Bool)) : Prop where
  failed : (.failOnError, true) ∉ calls
  reads : ∀ k, IsRead k → (k, false) ∉ calls

theorem keepsMail_of_clean {s₀ : Store} {w' : World DbCall Store} (h : Clean w'.calls) :
    KeepsMail env c s₀ w' :=
  ⟨fun hf => absurd hf.1 h.failed, fun k hk hm => absurd hm (h.reads k hk)⟩

theorem clean_append {a b : List (DbCall × Bool)} (ha : Clean a) (hb : Clean b) : Clean (a ++ b) :=
  ⟨fun h => (List.mem_append.mp h).elim ha.failed hb.failed,
    fun k hk h => (List.mem_append.mp h).elim (ha.reads k hk) (hb.reads k hk)⟩

theorem clean_succeeded {ks : List DbCall} (h : ∀ k ∈ ks, InTry k) : Clean (succeeded ks) := by
  constructor
  · intro hm
    obtain ⟨k, hk, heq⟩ := List.mem_map.mp hm
    obtain ⟨rfl, _⟩ := Prod.mk.inj heq
    rcases h _ hk with hr | hr <;> cases hr
  · intro k _ hm
    obtain ⟨k', _, heq⟩ := List.mem_map.mp hm
    cases (Prod.mk.inj heq).2

theorem clean_hold (b : Bool) : Clean [(.holdForDkimKey, b)] := by
  constructor
  · intro hm
    cases List.mem_singleton.mp hm
  · intro k hk hm
    obtain ⟨rfl, _⟩ := Prod.mk.inj (List.mem_singleton.mp hm)
    cases hk

/-- A row that was claimed and is left as it is can be claimed again. -/
theorem unharmed_stored (list : SuppressionList.Db) (outbox : List WebhookEvent)
    (attachments : List Attachment) :
    Unharmed env c (c.stored list outbox attachments) (c.stored list outbox attachments) := by
  obtain ⟨hclaimable, hemail⟩ := claimNextEmails_eq_some c.claimed
  refine ⟨⟨c.now + LEASE_MS + 1, ?_⟩, ?_, rfl, rfl⟩
  · unfold claimable at hclaimable ⊢
    obtain ⟨hdeleted, _⟩ := (Bool.and_eq_true _ _).mp hclaimable
    have hlease : leaseExpired (c.now + LEASE_MS + 1) c.email.toEmailRow = true := by
      rw [hemail]
      exact decide_eq_true (Nat.lt_succ_self _)
    have hrow : c.email.deletedAt = c.row.deletedAt ∧ c.email.status = .sending := by
      rw [hemail]
      exact ⟨rfl, rfl⟩
    show (c.email.deletedAt.isNone && (_ || decide (c.email.status = .sending) &&
      leaseExpired (c.now + LEASE_MS + 1) c.email.toEmailRow)) = true
    rw [hrow.1, hrow.2, hdeleted, hlease]
    simp
  · show c.email.deliveryState = _
    rw [hemail]

/-- The release that the `catch` writes. -/
def failRelease (env : Setting) (email : ClaimedEmail) (claim : Claim) (e : Thrown) (tx : TxEnv)
    (s : Store) : Store :=
  s.release env.workerId claim { status := .failed, lastError := some (some (e.message env)) }
    [.emailFailed email.id email.fromAddress email.toAddress email.subject (e.message env) none
      email.tags] tx

/-- The transaction of the `catch`. -/
theorem wp_catchBody {e : Thrown} (he : ∀ domain, e ≠ .dkimSigningFailed domain)
    {Q : Except Thrown (Option SentAttempt) → World DbCall Store → Prop} :
    wp found (catchBody env email claim e) Q w ↔
      (found w.calls.length = none →
        Q (.error (.database .failOnError)) { w with calls := w.calls ++ [(.failOnError, false)] }) ∧
      ∀ f, found w.calls.length = some f →
        Q (.ok none) ⟨failRelease env email claim e f.tx w.state, w.calls ++ [(.failOnError, true)]⟩ := by
  have hcatch : catchBody env email claim e = (do
      write env claim .failOnError (Emails.failOnError email (e.message env))
      pure none) := by
    cases e with
    | dkimSigningFailed domain => exact absurd rfl (he domain)
    | _ => rfl
  rw [hcatch]
  refine (wp_bind.trans wp_write).trans ⟨fun h => ⟨fun hn => (h.1 hn).2 _ rfl,
    fun f hf => (h.2 f hf).1 () rfl⟩, fun h => ⟨fun hn => ⟨fun _ hr => (by cases hr), fun e' he' => ?_⟩,
    fun f hf => ⟨fun _ _ => h.2 f hf, fun _ he' => (by cases he')⟩⟩⟩
  cases he'
  exact h.1 hn

/-- Once the `catch` has called its transaction, only the input clause is left. -/
theorem keepsMail_of_input {s₀ : Store} {w' : World DbCall Store} {calls : List (DbCall × Bool)}
    {b : Bool} (hcalls : w'.calls = calls ++ [(.failOnError, b)]) (hclean : ∀ k, IsRead k → (k, false) ∉ calls)
    (h : NoValidRecipient env c ∨
      ((.loadAttachments, true) ∈ calls ∧ ∃ a ∈ s₀.attachments, a.content = none)) :
    KeepsMail env c s₀ w' := by
  refine ⟨fun _ => h.imp_right fun h => ⟨?_, h.2⟩, fun k hk hm => ?_⟩
  · rw [hcalls]
    exact List.mem_append_left _ h.1
  · rw [hcalls] at hm
    rcases List.mem_append.mp hm with hm | hm
    · exact absurd hm (hclean k hk)
    · obtain ⟨rfl, _⟩ := Prod.mk.inj (List.mem_singleton.mp hm)
      cases hk

/-- With the key read. -/
def afterKey (s₀ : Store) : World DbCall Store := ⟨s₀, [(.findApiKeyById, true)]⟩

theorem clean_afterKey (s₀ : Store) : Clean (afterKey s₀).calls := by
  refine ⟨fun hm => ?_, fun k _ hm => ?_⟩
  · cases List.mem_singleton.mp hm
  · cases List.mem_singleton.mp hm

theorem database_injective : Function.Injective Thrown.database := fun _ _ h => by cases h; rfl

/-- **With an active key, nothing is lost while outages are contained.** -/
theorem wp_sendActive {list : SuppressionList.Db} {outbox : List WebhookEvent}
    {attachments : List Attachment}
    (hcontained : ∀ k w', tryBody env c.email c.claim found
        (afterKey (c.stored list outbox attachments)) = (.error (.database k), w') →
      found w'.calls.length = none ∨ (k = .holdForDkimKey ∧ NoValidRecipient env c)) :
    wp found (sendActive env c.email c.claim)
      (fun _ w' => KeepsMail env c (c.stored list outbox attachments) w')
      (afterKey (c.stored list outbox attachments)) := by
  have hstart := clean_afterKey (c.stored list outbox attachments)
  have hhonest : wp found (tryBody env c.email c.claim) (EndsHonestly .database InTry NotDatabase
      (afterKey (c.stored list outbox attachments))) (afterKey (c.stored list outbox attachments)) :=
    honest_tryBody found _
  refine wp_bind.mpr (wp_recover.mpr (wp.mono wp_tryBody.run fun r w' ⟨hpost, hrun⟩ => ?_))
  unfold wp at hhonest
  rw [hrun] at hhonest
  refine ⟨fun sent hr => ⟨fun sent' _ => ?_, fun _ he => (by cases he)⟩, fun e hr => ?_⟩
  · -- the attempt is recorded, or the email is held
    subst hr
    obtain ⟨ks, hks, hcalls⟩ := hhonest.of_ne fun _ h => (by cases h)
    have hclean : Clean w'.calls := hcalls ▸ clean_append hstart (clean_succeeded hks)
    cases sent' with
    | none => exact keepsMail_of_clean hclean
    | some sent' => exact keepsMail_of_clean hclean
  · subst hr
    obtain ⟨hstate, hthrown⟩ := hpost e rfl
    by_cases hdatabase : ∃ k, e = .database k
    · -- a call failed
      obtain ⟨k, rfl⟩ := hdatabase
      obtain ⟨ks, hks, hk, hcalls⟩ := hhonest.of_fail database_injective (fun h => h k rfl) rfl
      refine (wp_catchBody fun _ h => (by cases h)).mpr ⟨fun _ => ⟨fun _ hr => (by cases hr),
        fun _ _ => ⟨fun hf => ?_, fun k' _ _ => ?_⟩⟩, fun f hf => ⟨fun sent hsent => ?_,
        fun _ he => (by cases he)⟩⟩
      · -- nothing is written
        refine absurd hf.1 fun hm => ?_
        rcases List.mem_append.mp hm with hm | hm
        · rw [hcalls] at hm
          rcases List.mem_append.mp hm with hm | hm
          · exact hstart.failed hm
          · rcases List.mem_append.mp hm with hm | hm
            · exact (clean_succeeded hks).failed hm
            · cases List.mem_singleton.mp hm
        · cases List.mem_singleton.mp hm
      · show Unharmed env c _ w'.state
        rw [hstate]
        exact unharmed_stored list outbox attachments
      · rcases hcontained k w' hrun with hnone | ⟨rfl, hnobody⟩
        · rw [hnone] at hf
          cases hf
        · cases hsent
          have hclean : Clean w'.calls := by
            rw [hcalls]
            exact clean_append hstart (clean_append (clean_succeeded hks) (clean_hold false))
          exact keepsMail_of_input rfl hclean.reads (.inl hnobody)
    · obtain ⟨ks, hks, hcalls⟩ := hhonest.of_ne fun k h => hdatabase ⟨k, Except.error.inj h⟩
      have hclean : Clean w'.calls := hcalls ▸ clean_append hstart (clean_succeeded hks)
      have hinput : ∀ b (state : Store), (NoValidRecipient env c ∨ ((.loadAttachments, true) ∈ w'.calls ∧
          ∃ a ∈ (c.stored list outbox attachments).attachments, a.content = none)) →
          KeepsMail env c (c.stored list outbox attachments)
            ⟨state, w'.calls ++ [(.failOnError, b)]⟩ := fun b state h =>
        keepsMail_of_input rfl hclean.reads h
      cases e with
      | database k => exact absurd ⟨k, rfl⟩ hdatabase
      | dkimSigningFailed domain =>
        have hheld : wp found (hold env c.email c.claim domain .unusable)
          (EndsHonestly .database IsHold NotDatabase w') w' := honest_hold found w'
        refine wp.mono hheld fun r w'' hends => ?_
        have hclean' : Clean w''.calls := by
          rcases hends with ⟨ls, hls, hcalls', _⟩ | ⟨ls, k, hls, hk, hcalls', _⟩
          · rw [hcalls']
            exact clean_append hclean (clean_succeeded fun k hk => .inr (hls k hk))
          · rw [hcalls']
            refine clean_append hclean (clean_append (clean_succeeded fun k hk => .inr (hls k hk)) ?_)
            cases hk
            exact clean_hold false
        refine ⟨fun sent _ => ?_, fun _ _ => keepsMail_of_clean hclean'⟩
        cases sent with
        | none => exact keepsMail_of_clean hclean'
        | some sent => exact keepsMail_of_clean hclean'
      | noRecipients =>
        refine (wp_catchBody fun _ h => (by cases h)).mpr ⟨fun _ => ⟨fun _ hr => (by cases hr),
          fun _ _ => hinput _ _ (.inl (hthrown.recipients rfl))⟩, fun f _ => ⟨fun sent hsent => ?_,
          fun _ he => (by cases he)⟩⟩
        cases hsent
        exact hinput _ _ (.inl (hthrown.recipients rfl))
      | attachmentMissing position =>
        refine (wp_catchBody fun _ h => (by cases h)).mpr ⟨fun _ => ⟨fun _ hr => (by cases hr),
          fun _ _ => hinput _ _ (.inr (hthrown.attachments position rfl))⟩, fun f _ =>
          ⟨fun sent hsent => ?_, fun _ he => (by cases he)⟩⟩
        cases hsent
        exact hinput _ _ (.inr (hthrown.attachments position rfl))

/-! ## Exactly while outages are contained -/

/-- The domain is all that is read before an email is held. -/
theorem wp_tryBody_held {s₀ : Store} :
    wp found (tryBody env email claim)
      (fun r w' => r = .error (.database .holdForDkimKey) → (.loadAttachments, true) ∉ w'.calls)
      (afterKey s₀) := by
  refine wp_bind.mpr (wp.mono (honest_resolveDomainForEmail found _) fun r w' hends =>
    ⟨fun domain hr => ?_, fun e he heq => ?_⟩)
  · subst hr
    obtain ⟨ks, hks, hcalls⟩ := hends.of_ne fun _ h => (by cases h)
    have hbefore : (.loadAttachments, true) ∉ w'.calls := by
      rw [hcalls]
      intro hm
      rcases List.mem_append.mp hm with hm | hm
      · cases List.mem_singleton.mp hm
      · obtain ⟨k, hk, heq⟩ := List.mem_map.mp hm
        rw [hks k hk] at heq
        cases heq
    unfold sendFrom
    cases domain.filter fun d => d.dkimKeyUnreadable && env.production with
    | none =>
      refine wp.mono (honest_attempt found w') fun r w'' hends' hr => ?_
      obtain ⟨_, _, hk, _⟩ := hends'.of_fail database_injective (fun h => h _ rfl) hr
      cases hk
    | some d =>
      have hheld : wp found (hold env email claim d.name .unreadable)
        (EndsHonestly .database IsHold NotDatabase w') w' := honest_hold found w'
      refine wp.mono hheld fun r w'' hends' hr hm => ?_
      obtain ⟨ls, hls, _, hcalls'⟩ := hends'.of_fail database_injective (fun h => h _ rfl) hr
      rw [hcalls'] at hm
      rcases List.mem_append.mp hm with hm | hm
      · exact hbefore hm
      · rcases List.mem_append.mp hm with hm | hm
        · obtain ⟨k, hk, heq⟩ := List.mem_map.mp hm
          rw [hls k hk] at heq
          cases heq
        · cases List.mem_singleton.mp hm
  · rcases hends with ⟨_, _, _, hnever⟩ | ⟨_, k, _, hk, _, hr⟩
    · exact (hnever e he).elim
    · subst hk
      rw [he] at hr
      cases hr
      cases heq

/-- The claim holds its row. -/
theorem heldBy_claim : heldBy env.workerId c.claim c.email.toEmailRow = true := by
  obtain ⟨_, hemail⟩ := claimNextEmails_eq_some c.claimed
  have hrow : c.email.lockedBy = some env.workerId ∧ c.email.status = .sending := by
    rw [hemail]
    exact ⟨rfl, rfl⟩
  exact heldBy_iff.mpr ⟨rfl, hrow.1, rfl, hrow.2⟩

/-- What the `catch` leaves when its transaction commits. -/
theorem failRelease_stored {list : SuppressionList.Db} {outbox : List WebhookEvent}
    {attachments : List Attachment} {e : Thrown} {tx : TxEnv} :
    (failRelease env c.email c.claim e tx (c.stored list outbox attachments)).queue.row.status = .failed ∧
      ∃ event : WebhookEvent, event.isFailed = true ∧
        (failRelease env c.email c.claim e tx (c.stored list outbox attachments)).queue.outbox =
          outbox ++ [event] := by
  have hheld : heldBy env.workerId c.claim (c.stored list outbox attachments).queue.row = true :=
    heldBy_claim
  unfold failRelease Store.release
  rw [releaseRowWithEvents_of_held hheld]
  refine ⟨?_, _, ?_, rfl⟩
  · unfold releaseRow
    rw [if_pos hheld]
    rfl
  · rfl

/-- What a call of the `try` that fails leaves, when the `catch` commits. -/
theorem wp_sendClaimedEmail_lost {s₀ : Store} {first f : Found} {k : DbCall} {w' : World DbCall Store}
    (hfirst : found 0 = some first) (hactive : first.keyActive = true)
    (hrun : tryBody env email claim found (afterKey s₀) = (.error (.database k), w'))
    (hf : found w'.calls.length = some f) :
    wp found (sendClaimedEmail env email claim) (fun _ w'' =>
      w'' = ⟨failRelease env email claim (.database k) f.tx w'.state, w'.calls ++ [(.failOnError, true)]⟩)
      ⟨s₀, []⟩ := by
  have hfound : found (World.mk s₀ ([] : List (DbCall × Bool))).calls.length = some first := hfirst
  refine wp_bind.mpr (wp_call.mpr ⟨fun hnone => ?_, fun first' hfirst' => ⟨fun keyActive hkey => ?_,
    fun _ he => (by cases he)⟩⟩)
  · rw [hfound] at hnone
    cases hnone
  · have hsame : first' = first := Option.some.inj (hfirst'.symm.trans hfound)
    obtain rfl : keyActive = true := by
      rw [← Except.ok.inj hkey, hsame]
      exact hactive
    refine wp_ite.mpr ⟨fun _ => ?_, fun h => absurd rfl h⟩
    refine wp_bind.mpr (wp_recover.mpr (wp.mono (wp.run (Q := fun _ _ => True) trivial)
      fun r w'' ⟨_, hr⟩ => ?_))
    obtain ⟨rfl, rfl⟩ := Prod.mk.inj (hr.symm.trans hrun)
    refine ⟨fun _ h => (by cases h), fun e he => ?_⟩
    cases he
    refine (wp_catchBody fun _ h => (by cases h)).mpr ⟨fun hnone => ?_, fun f' hf' =>
      ⟨fun sent hsent => ?_, fun _ he => (by cases he)⟩⟩
    · rw [hf] at hnone
      cases hnone
    · cases hsent
      rw [Option.some.inj (hf'.symm.trans hf)]
      rfl

end Outages

/-! ## A lookup that fails once -/

/-- A new row with its claim. -/
def firstClaim : ClaimedRow "w1" where
  row := Queue.oneRecipient
  now := 0
  appNow := 0
  email := { Queue.oneRecipient with
    status := .sending
    attempts := 1
    lockedBy := some "w1"
    leaseUntil := some LEASE_MS
    ageMs := 0 }
  claimed := by decide +kernel

/-- A working setup; the domain is on file. -/
def workingSetting : Setting where
  toLowerCase := id
  workerId := "w1"
  domainId := some "dom_1"
  production := true
  newMessageId := "<1@from.org>"
  droppedAt := 0
  signedReturnPath := false
  mailer := Queue.answering fun _ => .resolved [] []
  decision := ⟨259200000, 0, 0⟩
  dbError _ := "connection terminated"
  fate _ := .committed
  tx _ := ⟨1, 1, fun recipient => recipient⟩

/-- The second call fails. -/
def secondFails (i : ℕ) : Option Found :=
  if i = 1 then none else some ⟨true, none, false, ⟨1, 1, fun recipient => recipient⟩⟩

end BunMail.Emails.Reads
