import BunMail.Emails.QueueRun

/-!
# Events and outcomes commit together

The events of an outcome are enqueued only if the claim still holds the row when its transaction
releases it; the inline bounces are announced before that, whatever the release says.  Every event
is in a transaction that saved an outcome exactly when each transaction that announces bounces
commits while its claim holds the row.
-/

namespace BunMail.Emails.Queue

open Run

section Together

/-- Every event of the transaction commits with a saved outcome, and a saved outcome announces each
of its bounces once, or none. -/
structure Commit.Together (c : Commit) : Prop where
  saved : c.events ≠ [] → c.saved = true
  announced : Emails.announced c.events = [] ∨
    c.saved = true ∧ Emails.announced c.events = c.bounces.map InlineBounce.recipient

/-- Every transaction so far. -/
def CommitsTogether (s : State) : Prop := ∀ c ∈ s.commits, c.Together

/-- The condition on a step: a transaction that announces bounces commits while its claim holds the
row. -/
def AnnouncesHeld (s : State) : Action → Prop
  | .write i fate _ => ∀ w ∈ s.writers[i]?, w.done = false → fate ≠ .rolledBack →
      w.withEvents = true → w.bounces ≠ [] → heldBy w.workerId w.claim s.db.row = true
  | .claimNextEmails .. | .renewLease .. | .releaseOwnLeases .. => True

instance (s : State) : ∀ a, Decidable (AnnouncesHeld s a)
  | .write i fate _ => inferInstanceAs (Decidable (∀ w ∈ s.writers[i]?, w.done = false →
      fate ≠ .rolledBack → w.withEvents = true → w.bounces ≠ [] →
        heldBy w.workerId w.claim s.db.row = true))
  | .claimNextEmails .. | .renewLease .. | .releaseOwnLeases .. => inferInstanceAs (Decidable True)

variable {toLowerCase : Text → Text} {s : State} {w : Writer} {tx : TxEnv} {db : QueueDb}

/-- A release of `sendClaimedEmail` announces no bounce. -/
theorem bounced?_of_release {env : SendEnv} {email : ClaimedEmail} {claim : Claim}
    {values : RowValues} {events : List WebhookEvent}
    (h : sendClaimedEmail toLowerCase env email claim = .release values events) :
    ∀ event ∈ events, event.bounced? = none := by
  have hcases := sendClaimedEmail_cases toLowerCase env email claim
  rw [h] at hcases
  rcases hcases with ⟨_, _, _, hr, hfailed⟩ | ⟨_, ⟨_, _, hr⟩ | ⟨_, _, hr⟩⟩
  · cases hr
    intro event he
    have := hfailed event he
    cases event <;> first | rfl | cases this
  · cases hr
  · cases hr
    exact fun event he => (by cases he)

theorem announced_of_none {events : List WebhookEvent} (h : ∀ event ∈ events, event.bounced? = none) :
    announced events = [] := List.filterMap_eq_nil_iff.mpr h

theorem announced_of_map {events : List WebhookEvent} {recipients : List Text}
    (h : events.map WebhookEvent.bounced? = recipients.map some) : announced events = recipients := by
  have hid := congrArg (List.filterMap id) h
  rwa [List.filterMap_map, List.filterMap_map, Function.id_comp, Function.id_comp,
    List.filterMap_some] at hid

theorem announced_append (a b : List WebhookEvent) :
    announced (a ++ b) = announced a ++ announced b := List.filterMap_append

/-- The release at the end of a transaction that announced the bounces of `recipients`. -/
theorem together_release_iff {workerId : Text} {claim : Claim} {values : RowValues}
    {events new : List WebhookEvent} {bounces : List InlineBounce} {recipients : List Text}
    {db₀ : QueueDb} (hout : db.outbox = db₀.outbox ++ new)
    (hnew : new.map WebhookEvent.bounced? = recipients.map some)
    (hevents : ∀ event ∈ events, event.bounced? = none)
    (hrec : recipients = [] ∨ recipients = bounces.map InlineBounce.recipient) :
    Commit.Together ⟨bounces,
        (releaseRowWithEvents workerId claim values events tx db).1.outbox.drop db₀.outbox.length,
        (releaseRowWithEvents workerId claim values events tx db).2⟩ ↔
      (recipients ≠ [] → heldBy workerId claim db.row = true) := by
  have hann := announced_of_map hnew
  cases h : heldBy workerId claim db.row with
  | true =>
    -- saved: whatever was announced is in the transaction
    refine iff_of_true ?_ fun _ => rfl
    rw [releaseRowWithEvents_of_held h]
    dsimp only
    rw [hout, List.append_assoc, List.drop_left]
    refine ⟨fun _ => rfl, ?_⟩
    rw [announced_append, hann, announced_of_none hevents, List.append_nil]
    exact hrec.imp id fun hr => ⟨rfl, hr⟩
  | false =>
    -- not saved: only a transaction that announces nothing is in order
    rw [releaseRowWithEvents_of_not_held h]
    dsimp only
    rw [hout, List.drop_left]
    constructor
    · intro ht hne
      refine absurd (ht.saved ?_) Bool.false_ne_true
      rintro rfl
      exact hne (List.map_eq_nil_iff.mp hnew.symm)
    · intro hc
      have hnil : recipients = [] := by
        by_contra hne
        exact Bool.false_ne_true (hc hne)
      rw [hnil] at hnew
      rw [List.map_eq_nil_iff.mp hnew]
      exact ⟨fun hne => absurd rfl hne, .inl rfl⟩

/-- The events a claim enqueues with its release announce no bounce. -/
theorem bounced?_of_mem_writer_events
    (he : w.effect = sendClaimedEmail toLowerCase w.env w.email w.claim) :
    ∀ event ∈ w.events, event.bounced? = none := by
  intro event hm
  unfold Writer.events at hm
  cases heff : w.effect with
  | release values events =>
    rw [heff] at hm he
    exact bounced?_of_release he.symm event hm
  | record sent =>
    rw [heff] at hm
    dsimp only at hm
    split_ifs at hm
    · exact bounced?_of_mem_events hm
    · cases hm

/-- What a committed transaction is remembered by is in order exactly when it announces no bounce or
its claim holds the row. -/
theorem together_commitOf_iff {db' : QueueDb} (hf : Files db db' w.announces)
    (he : w.effect = sendClaimedEmail toLowerCase w.env w.email w.claim) :
    (commitOf w db (releaseRowWithEvents w.workerId w.claim w.values w.events tx db').1
        (releaseRowWithEvents w.workerId w.claim w.values w.events tx db').2).Together ↔
      (w.withEvents = true → w.bounces ≠ [] → heldBy w.workerId w.claim db.row = true) := by
  obtain ⟨new, hout, hnew⟩ := hf.outbox
  unfold commitOf
  rw [together_release_iff hout hnew (bounced?_of_mem_writer_events he) ?_, hf.row]
  · unfold Writer.announces
    cases w.withEvents <;> simp
  · unfold Writer.announces
    cases w.withEvents
    · exact .inl rfl
    · exact .inr rfl

theorem commits_claim (workerId : Text) (now appNow : Time) (env : SendEnv) :
    (s.claim toLowerCase workerId now appNow env).commits = s.commits := by
  unfold State.claim
  cases Emails.claimNextEmails workerId now appNow s.db.row <;> rfl

/-- One more transaction. -/
theorem commitsTogether_concat {db : QueueDb} {writers : List Writer} {c : Commit} :
    CommitsTogether ⟨db, writers, s.commits ++ [c]⟩ ↔ CommitsTogether s ∧ c.Together := by
  constructor
  · intro h
    exact ⟨fun c' hc' => h c' (List.mem_append_left _ hc'),
      h c (List.mem_append_right _ (List.mem_singleton_self _))⟩
  · rintro ⟨h, hc⟩ c' hc'
    rcases List.mem_append.mp hc' with hc' | hc'
    · exact h c' hc'
    · rw [List.mem_singleton.mp hc']
      exact hc

theorem announcesHeld_write {i : ℕ} {fate : Fate} (hw : s.writers[i]? = some w) :
    AnnouncesHeld s (.write i fate tx) ↔ (w.done = false → fate ≠ .rolledBack →
      w.withEvents = true → w.bounces ≠ [] → heldBy w.workerId w.claim s.db.row = true) := by
  rw [AnnouncesHeld, hw]
  exact ⟨fun h => h w rfl, fun h w' hw' => Option.some.inj hw' ▸ h⟩

/-- **Step.** What committed stays together exactly when it was and the step meets the condition. -/
theorem commitsTogether_step_iff (h : Inv toLowerCase s) (a : Action) :
    CommitsTogether (step toLowerCase s a) ↔ CommitsTogether s ∧ AnnouncesHeld s a := by
  cases a with
  | claimNextEmails workerId now appNow env =>
    rw [step, CommitsTogether, commits_claim]
    exact (iff_of_eq (and_true _)).symm
  | renewLease i now =>
    rw [step]
    cases s.writers[i]? <;> exact (iff_of_eq (and_true _)).symm
  | releaseOwnLeases workerId now => exact (iff_of_eq (and_true _)).symm
  | write i fate tx =>
    rw [step]
    rcases write_cases h i fate tx with
      ⟨heq, hdone⟩ | ⟨w, hw, hnd, w', _, ⟨hfate, heq⟩ | ⟨hfate, db', hf, heq⟩⟩
    · rw [heq]
      refine (and_iff_left fun w hw hnd => ?_).symm
      rw [hdone w hw] at hnd
      cases hnd
    · rw [heq, announcesHeld_write hw]
      exact (and_iff_left fun _ hne => absurd hfate hne).symm
    · rw [heq, announcesHeld_write hw, commitsTogether_concat,
        together_commitOf_iff hf (h.effects w (List.mem_of_getElem? hw))]
      exact and_congr_right fun _ => ⟨fun hc _ _ => hc, fun hc => hc hnd hfate⟩

/-- **Events and outcomes.** From a row no claim of which is on its way, every event is in a
transaction that saved its claim's outcome exactly when each transaction that announces bounces
commits while its claim holds the row. -/
theorem commitsTogether_iff {db : QueueDb} {as : List Action} (hid : db.row.id ∈ db.list.emails) :
    CommitsTogether (run (step toLowerCase) ⟨db, [], []⟩ as) ↔
      Along (step toLowerCase) AnnouncesHeld ⟨db, [], []⟩ as := by
  have hempty : CommitsTogether ⟨db, [], []⟩ := fun c hc => (by cases hc)
  rw [iff_along (Inv toLowerCase) CommitsTogether (fun s a h => inv_step h a)
    (fun s a h => commitsTogether_step_iff h a) (inv_start hid)]
  exact and_iff_right hempty

end Together

/-! ## A claim whose lease expired -/

/-- The MX does not know the recipient. -/
def userUnknown : SendEnv :=
  working (answering fun _ => .threw (.error
    { message := "Recipient command failed", responseCode := some 550
      response := some "550 5.1.1 No such user" }))

/-- A write that is rolled back and tried again while its claim holds the row. -/
theorem commitsTogether_retried :
    CommitsTogether (run (step id) ⟨newDb oneRecipient, [], []⟩
      [.claimNextEmails "w1" 0 0 userUnknown,
        .write 0 .rolledBack ⟨1, 1, fun recipient => recipient⟩, commitAt 0 2]) :=
  (commitsTogether_iff (by decide)).mpr (by decide +kernel)

/-- The lease of the first claim expires while it is sending and a second worker claims the row;
then the first claim announces its bounce in a transaction that does not save its outcome. -/
theorem not_commitsTogether_expired :
    ¬ CommitsTogether (run (step id) ⟨newDb oneRecipient, [], []⟩
      [.claimNextEmails "w1" 0 0 userUnknown, .claimNextEmails "w2" 900001 900001 userUnknown,
        commitAt 0 900002]) := by
  intro h
  have hbad : ((run (step id) ⟨newDb oneRecipient, [], []⟩
      [.claimNextEmails "w1" 0 0 userUnknown, .claimNextEmails "w2" 900001 900001 userUnknown,
        commitAt 0 900002]).commits.any fun c => !c.events.isEmpty && !c.saved) = true := by
    decide +kernel
  obtain ⟨c, hc, hev⟩ := List.any_eq_true.mp hbad
  rw [Bool.and_eq_true, Bool.not_eq_true', Bool.not_eq_true'] at hev
  have hsaved := (h c hc).saved (by simpa using hev.1)
  rw [hsaved] at hev
  exact Bool.noConfusion hev.2

end BunMail.Emails.Queue
