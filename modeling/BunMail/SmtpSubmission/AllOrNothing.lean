import BunMail.SmtpSubmission.SubmissionData

/-!
# `DATA` is all or nothing

Whatever call fails, the client is answered once.  A refused message is not queued, and holds no slot
of the quota unless the release itself failed, exactly while the call that counts an accepted message
does not fail: it comes after the message is queued, inside the same `try`, and its failure is
answered 451.  With a quota there is no such call.
-/

namespace BunMail.SmtpSubmission.Data

open Recipients Faults

section Outcome

variable {κ ε : Type}

/-- The tables hold no more email than before. -/
def NotQueued (db db' : Db κ) : Prop := db'.emails = db.emails ∧ db'.queued = db.queued

/-- The tables hold one more. -/
def Queued (db db' : Db κ) : Prop := ∃ email, db'.emails = db.emails ++ [email]

/-- The messages a key has had accepted on a day. -/
def accepted (usage : Table UsageRow.key) (apiKeyId day : Text) : ℕ :=
  (usage.find? (apiKeyId, day)).elim 0 UsageRow.accepted

/-- What a message leaves. -/
structure AllOrNothing (db : Db κ) (w : World DbCall (Handler κ)) : Prop where
  /-- The client gets one reply. -/
  one : ∃ reply, w.state.replies = [reply]
  /-- An error reply means that nothing was queued. -/
  refused : ∀ code message, .error code message ∈ w.state.replies → NotQueued db w.state.db
  /-- A message that was not queued holds no slot, unless the release failed. -/
  slot : NotQueued db w.state.db → (.releaseReservation, false) ∉ w.calls →
    ∀ apiKeyId day, accepted w.state.db.usage apiKeyId day = accepted db.usage apiKeyId day

/-- Before the first call. -/
def start (db : Db κ) : World DbCall (Handler κ) := ⟨{ db }, []⟩

variable (config : Config) (rules : Rules κ)

/-- There is a daily quota, or the call after the one that queues the message does not fail. -/
def CountedOnceQueued (env : ℕ → Option Found) (session : Session) (chunks : List (List UInt8))
    (db : Db κ) : Prop :=
  0 < config.dailyQuota ∨
    ∀ apiKeyId w, session.user.filter (· ≠ []) = some apiKeyId →
      (received config chunks).aborted = false →
      queueMessage config rules session apiKeyId (received config chunks).chunks env (start db) =
        (.ok (), w) →
      env w.calls.length ≠ none

/-! ## The counters -/

/-- What an upsert leaves of the count. -/
theorem accepted_upsert {usage : Table UsageRow.key} {row : UsageRow} {update : UsageRow → UsageRow}
    (hu : ∀ r, r.key = row.key → (update r).key = r.key) (key day : Text) :
    accepted (usage.upsert row update hu) key day =
      if (key, day) = row.key then ((usage.find? (key, day)).elim row update).accepted
      else accepted usage key day := by
  unfold accepted
  split_ifs with hk
  · rw [hk, Table.find?_upsert_self]
    rfl
  · rw [Table.find?_upsert_ne hu hk]

/-- A rejection counts nothing accepted. -/
theorem accepted_countOutcome (db : Db κ) (apiKeyId day key day' : Text) :
    accepted (countOutcome apiKeyId day .rejected db).usage key day' =
      accepted db.usage key day' := by
  unfold countOutcome
  refine (accepted_upsert ?_ key day').trans ?_
  · exact fun _ _ => rfl
  by_cases hk : (key, day') = (apiKeyId, day)
  · refine (if_pos hk).trans ?_
    unfold accepted
    cases db.usage.find? (key, day') <;> rfl
  · exact if_neg hk

/-- A slot that is taken counts one more on its day. -/
theorem accepted_takeSlot {apiKeyId day : Text} {dailyQuota : ℕ} {usage : Table UsageRow.key}
    (key day' : Text) :
    accepted (takeSlot apiKeyId day dailyQuota usage).1 key day' = accepted usage key day' +
      if (takeSlot apiKeyId day dailyQuota usage).2.isSome ∧ (key, day') = (apiKeyId, day) then 1
      else 0 := by
  have hkey : UsageRow.key ⟨apiKeyId, day, 1, 0⟩ = (apiKeyId, day) := rfl
  unfold takeSlot Table.upsertWhere
  refine (accepted_upsert ?_ key day').trans ?_
  · exact Table.key_guarded fun _ _ => rfl
  rw [hkey]
  by_cases hk : (key, day') = (apiKeyId, day)
  · rw [if_pos hk]
    unfold accepted
    rw [hk]
    cases hrow : usage.find? (apiKeyId, day) with
    | none => simp
    | some r => by_cases hlt : r.accepted < dailyQuota <;> simp [hlt]
  · rw [if_neg hk, if_neg (fun h => hk h.2), Nat.add_zero]

/-- A slot that is given back counts one less. -/
theorem accepted_giveBack {apiKeyId day : Text} {usage : Table UsageRow.key} (key day' : Text) :
    accepted (giveBack apiKeyId day usage) key day' =
      accepted usage key day' - if (key, day') = (apiKeyId, day) then 1 else 0 := by
  unfold accepted giveBack
  rw [Table.find?_updateAll]
  cases hrow : usage.find? (key, day') with
  | none => simp
  | some r =>
    have hkey : r.key = (key, day') := Table.key_of_find? hrow
    by_cases hk : (key, day') = (apiKeyId, day)
    · simp [hkey, hk]
    · simp [hkey, hk]

/-! ## The checks only read -/

variable {config : Config} {rules : Rules κ}

theorem reads_suppressionGate {apiKeyId : Text} (recipients : List Recipient) :
    Reads (suppressionGate config rules apiKeyId recipients) := by
  induction recipients with
  | nil => exact reads_pure
  | cons rcpt rest ih => exact reads_call.bind fun _ => reads_check.bind fun _ => ih

theorem reads_checkSenderDomain {name : Text} : Reads (checkSenderDomain config rules name) :=
  reads_call.bind fun _ => reads_check.bind fun _ => reads_pure

theorem reads_senderDomainId {from_ : Text} : Reads (senderDomainId config rules from_) := by
  unfold senderDomainId
  cases senderDomainOf from_ with
  | none => exact reads_pure
  | some name => exact reads_checkSenderDomain

theorem reads_prepareEmail {input : SendEmailInput κ} {apiKeyId : Text} :
    Reads (prepareEmail config rules input apiKeyId) := by
  unfold prepareEmail
  refine reads_check.bind fun _ => reads_check.bind fun _ =>
    (reads_suppressionGate _).bind fun _ => reads_call.bind fun _ => reads_check.bind fun _ =>
    reads_check.bind fun _ => reads_check.bind fun _ => reads_senderDomainId.bind fun _ => reads_pure

/-! ## The specification of each part -/

variable {env : ℕ → Option Found} {w : World DbCall (Handler κ)} {apiKeyId : Text}

/-- A part that queues the message when it returns, and changes nothing when it throws. -/
def QueuesOrNothing (w : World DbCall (Handler κ)) (r : Except SendError Unit)
    (w' : World DbCall (Handler κ)) : Prop :=
  (r = .ok () ∧ ∃ email, w'.state = { w.state with db := w.state.db.queue email }) ∨
    ∃ e, r = .error e ∧ w'.state = w.state

theorem wp_createEmail {input : SendEmailInput κ} :
    wp env (createEmail config rules input apiKeyId) (QueuesOrNothing w) w := by
  refine wp_bind.mpr ⟨fun prepared _ => ?_, fun e he => .inr ⟨e, rfl, reads_prepareEmail env w⟩⟩
  have hread : (prepareEmail config rules input apiKeyId env w).2.state = w.state :=
    reads_prepareEmail env w
  refine wp_call.mpr ⟨fun _ => .inr ⟨_, rfl, hread⟩, fun found _ => .inl ⟨rfl, prepared found.id, ?_⟩⟩
  dsimp only
  rw [hread]

theorem wp_queueMessage {session : Session} {bytes : List UInt8} :
    wp env (queueMessage config rules session apiKeyId bytes) (QueuesOrNothing w) w := by
  unfold queueMessage
  cases rules.simpleParser bytes with
  | none => exact wp_throw.mpr (.inr ⟨_, rfl, rfl⟩)
  | some parsed =>
    refine wp_bind.mpr ⟨fun _ _ => ?_, fun e _ => .inr ⟨e, rfl, rfl⟩⟩
    cases buildSubmissionInput rules.toLowerCase (submitted session parsed).parts with
    | error message => exact wp_throw.mpr (.inr ⟨_, rfl, rfl⟩)
    | ok input => exact wp_createEmail

/-- What the body of the `try` has done when it returns, and what it leaves to the `catch`. -/
def AcceptsOrNothing (w : World DbCall (Handler κ)) (r : Except SendError Unit)
    (w' : World DbCall (Handler κ)) : Prop :=
  (r = .ok () ∧ w'.state.replies = w.state.replies ++ [.ok] ∧ Queued w.state.db w'.state.db) ∨
    ∃ e, r = .error e ∧ w'.state = w.state

/-- With a slot, or when the count of an accepted message does not fail, an error means that nothing
was done. -/
theorem wp_acceptMessage {session : Session} {bytes : List UInt8}
    (hrec : w.state.reservedDay ≠ none ∨ ∀ w', queueMessage config rules session apiKeyId bytes env w =
      (.ok (), w') → env w'.calls.length ≠ none) :
    wp env (acceptMessage config rules session apiKeyId bytes) (AcceptsOrNothing w) w := by
  unfold acceptMessage
  refine wp_bind.mpr (wp.mono wp_queueMessage.run fun r w₁ ⟨hqueue, hrun⟩ => ?_)
  rcases hqueue with ⟨rfl, email, hstate⟩ | ⟨e, rfl, hstate⟩
  · refine ⟨fun _ _ => wp_bind.mpr ?_, fun _ he => (by cases he)⟩
    have hday : w₁.state.reservedDay = w.state.reservedDay := by rw [hstate]
    have hreplies : w₁.state.replies = w.state.replies := by rw [hstate]
    have hqueued : Queued w.state.db w₁.state.db := ⟨email, by rw [hstate]; rfl⟩
    refine wp_bind.mpr (wp_get.mpr ⟨fun h hh => ?_, fun _ he => (by cases he)⟩)
    cases hh
    refine wp_ite.mpr ⟨fun hnone => wp_call.mpr ⟨fun hfail => ?_, fun found _ =>
      ⟨fun _ _ => .inl ⟨rfl, ?_, ?_⟩, fun _ he => (by cases he)⟩⟩, fun _ =>
      ⟨fun _ _ => .inl ⟨rfl, ?_, hqueued⟩, fun _ he => (by cases he)⟩⟩
    · rcases hrec with hslot | hcount
      · exact absurd (hday ▸ hnone) hslot
      · exact absurd hfail (hcount w₁ hrun)
    · show w₁.state.replies ++ [Reply.ok] = _
      rw [hreplies]
    · exact hqueued
    · show w₁.state.replies ++ [Reply.ok] = _
      rw [hreplies]
  · exact ⟨fun _ he => (by cases he), fun e' he => .inr ⟨e', rfl, hstate⟩⟩

/-- What the `catch` finds: nothing answered, nothing queued, and either no slot or the one it holds. -/
structure Refusable (db : Db κ) (apiKeyId : Text) (h : Handler κ) : Prop where
  replies : h.replies = []
  notQueued : NotQueued db h.db
  slot : ∀ key day, accepted h.db.usage key day = accepted db.usage key day +
    if h.reservedDay = some day ∧ key = apiKeyId then 1 else 0

theorem refusable_start (db : Db κ) : Refusable db apiKeyId (start db).state :=
  ⟨rfl, ⟨rfl, rfl⟩, fun _ _ => rfl⟩

/-- Every reply of the `catch` is an error. -/
theorem exists_reply_eq (e : SendError) : ∃ code message, e.reply = .error code message := by
  cases e <;> exact ⟨_, _, rfl⟩

/-- One statement of the `catch`. -/
theorem allOrNothing_of_released {db : Db κ} {w' : World DbCall (Handler κ)} {reply : Reply}
    (hreplies : w'.state.replies = [reply]) (hqueued : NotQueued db w'.state.db)
    (hslot : (.releaseReservation, false) ∉ w'.calls →
      ∀ key day, accepted w'.state.db.usage key day = accepted db.usage key day) :
    AllOrNothing db w' :=
  ⟨⟨reply, hreplies⟩, fun _ _ _ => hqueued, fun _ => hslot⟩

/-- **The `catch` gives the slot back and answers once.** -/
theorem wp_refuseMessage {db : Db κ} (h : Refusable db apiKeyId w.state) (e : SendError) :
    wp env (refuseMessage apiKeyId e : Action κ ε Unit) (fun _ w' => AllOrNothing db w') w := by
  refine wp_bind.mpr (wp_get.mpr ⟨fun h' hh => ?_, fun _ he => (by cases he)⟩)
  cases hh
  have hreplies : ∀ state : Handler κ, state.replies = w.state.replies →
      state.replies ++ [e.reply] = [e.reply] := by
    intro state hstate
    rw [hstate, h.replies, List.nil_append]
  refine wp_bind.mpr (wp_recover.mpr ?_)
  have hslot := h.slot
  cases hday : w.state.reservedDay with
  | none =>
    rw [hday] at hslot
    refine wp_call.mpr ⟨fun _ => ⟨fun _ hr => (by cases hr), fun _ _ => ⟨fun _ _ => ?_,
      fun _ he => (by cases he)⟩⟩, fun found _ => ⟨fun _ _ => ⟨fun _ _ => ?_, fun _ he => (by cases he)⟩,
      fun _ he => (by cases he)⟩⟩
    · refine allOrNothing_of_released (hreplies _ rfl) h.notQueued fun _ key day => ?_
      exact (hslot key day).trans (by simp)
    · refine allOrNothing_of_released (hreplies _ rfl) h.notQueued fun _ key day => ?_
      exact (accepted_countOutcome _ _ _ _ _).trans ((hslot key day).trans (by simp))
  | some day =>
    rw [hday] at hslot
    refine wp_call.mpr ⟨fun _ => ⟨fun _ hr => (by cases hr), fun _ _ => ⟨fun _ _ => ?_,
      fun _ he => (by cases he)⟩⟩, fun found _ => ⟨fun _ _ => ⟨fun _ _ => ?_, fun _ he => (by cases he)⟩,
      fun _ he => (by cases he)⟩⟩
    · -- the release failed
      exact allOrNothing_of_released (hreplies _ rfl) h.notQueued fun hcalls =>
        absurd (List.mem_append_right _ (List.mem_singleton_self _)) hcalls
    · refine allOrNothing_of_released (hreplies _ rfl) h.notQueued fun _ key day' => ?_
      refine (accepted_giveBack key day').trans ?_
      rw [hslot key day']
      by_cases hk : key = apiKeyId ∧ day' = day
      · obtain ⟨rfl, rfl⟩ := hk
        simp
      · have hne : (key, day') ≠ (apiKeyId, day) := fun heq => hk (Prod.mk.inj heq)
        rw [if_neg hne, if_neg fun hc => hk ⟨hc.2, (Option.some.inj hc.1).symm⟩]
        rfl

theorem allOrNothing_of_queued {db : Db κ} {w' : World DbCall (Handler κ)}
    (hreplies : w'.state.replies = [.ok]) (hqueued : Queued db w'.state.db) : AllOrNothing db w' := by
  refine ⟨⟨_, hreplies⟩, fun code message hm => ?_, fun hnot => ?_⟩
  · rw [hreplies] at hm
    cases List.mem_singleton.mp hm
  · obtain ⟨email, hemails⟩ := hqueued
    have hlen := congrArg List.length (hnot.1.symm.trans hemails)
    rw [List.length_append, List.length_singleton] at hlen
    omega

/-- What the body of the `try` leaves: a message that is answered, or one that can be refused. -/
def TryLeaves (db : Db κ) (apiKeyId : Text) (r : Except SendError Unit)
    (w' : World DbCall (Handler κ)) : Prop :=
  (r = .ok () ∧ AllOrNothing db w') ∨ ∃ e, r = .error e ∧ Refusable db apiKeyId w'.state

/-- From a state in which the message can be refused. -/
theorem wp_acceptMessage_of_refusable {db : Db κ} {session : Session} {bytes : List UInt8}
    (h : Refusable db apiKeyId w.state) (hdb : w.state.db.emails = db.emails)
    (hrec : w.state.reservedDay ≠ none ∨ ∀ w', queueMessage config rules session apiKeyId bytes env w =
      (.ok (), w') → env w'.calls.length ≠ none) :
    wp env (acceptMessage config rules session apiKeyId bytes) (TryLeaves db apiKeyId) w := by
  refine wp.mono (wp_acceptMessage hrec) fun r w' hpost => ?_
  rcases hpost with ⟨rfl, hreplies, email, hemails⟩ | ⟨e, rfl, hstate⟩
  · refine .inl ⟨rfl, allOrNothing_of_queued ?_ ⟨email, hemails.trans (by rw [hdb])⟩⟩
    rw [hreplies, h.replies, List.nil_append]
  · exact .inr ⟨e, rfl, hstate ▸ h⟩

theorem wp_submitMessage {db : Db κ} {session : Session} {bytes : List UInt8}
    (hrec : 0 < config.dailyQuota ∨ ∀ w', queueMessage config rules session apiKeyId bytes env
      (start db) = (.ok (), w') → env w'.calls.length ≠ none) :
    wp env (submitMessage config rules session apiKeyId bytes) (TryLeaves db apiKeyId) (start db) := by
  refine wp_ite.mpr ⟨fun hquota => ?_, fun hquota =>
    wp_acceptMessage_of_refusable (refusable_start db) rfl (.inr (hrec.resolve_left hquota))⟩
  refine wp_bind.mpr (wp_call.mpr ⟨fun _ => ⟨fun _ hr => (by cases hr), fun e he =>
    .inr ⟨e, rfl, refusable_start db⟩⟩, fun found _ => ⟨fun reservedDay hday => ?_,
    fun _ he => (by cases he)⟩⟩)
  have hslot := @accepted_takeSlot apiKeyId (Calendar.isoDate found.now) config.dailyQuota db.usage
  have hreserved : (takeSlot apiKeyId (Calendar.isoDate found.now) config.dailyQuota db.usage).2.map
      (fun _ => Calendar.isoDate found.now) = reservedDay := Except.ok.inj hday
  refine wp_bind.mpr (wp_modify.mpr ⟨fun _ _ => ?_, fun _ he => (by cases he)⟩)
  cases hrow : (takeSlot apiKeyId (Calendar.isoDate found.now) config.dailyQuota db.usage).2 with
  | none =>
    -- the quota is used up
    rw [hrow] at hreserved hslot
    have hsame : ∀ key day, accepted (takeSlot apiKeyId (Calendar.isoDate found.now) config.dailyQuota
        db.usage).1 key day = accepted db.usage key day := hslot
    subst hreserved
    refine wp_ite.mpr ⟨fun _ => ?_, fun hsome => absurd rfl hsome⟩
    refine wp_bind.mpr (wp_call.mpr ⟨fun _ => ⟨fun _ hr => (by cases hr), fun e he =>
      .inr ⟨e, rfl, rfl, ⟨rfl, rfl⟩, hsame⟩⟩, fun _ _ => ⟨fun _ _ =>
      .inl ⟨rfl, ?_⟩, fun _ he => (by cases he)⟩⟩)
    exact allOrNothing_of_released rfl ⟨rfl, rfl⟩ fun _ key day =>
      (accepted_countOutcome _ _ _ _ _).trans (hsame key day)
  | some row =>
    -- the message holds a slot
    rw [hrow] at hreserved hslot
    subst hreserved
    refine wp_ite.mpr ⟨fun hnone => (by cases hnone), fun hsome =>
      wp_acceptMessage_of_refusable ⟨rfl, ⟨rfl, rfl⟩, fun key day => ?_⟩ rfl (.inl hsome)⟩
    refine (hslot key day).trans ?_
    simp only [Option.isSome_some, true_and, Prod.mk.injEq, Option.map_some, Option.some.injEq]
    congr 2
    exact propext ⟨fun hc => ⟨hc.2.symm, hc.1⟩, fun hc => ⟨hc.2, hc.1.symm⟩⟩

/-! ## The whole message -/

/-- A stream has been answered once it is aborted, with one refusal, and not before. -/
def Stream.Answered (s : Stream) : Prop :=
  (s.aborted = false ∧ s.replies = []) ∨
    (s.aborted = true ∧ ∃ code message, s.replies = [.error code message])

theorem answered_onChunk {s : Stream} {chunk : List UInt8} (h : s.Answered) :
    (onChunk config s chunk).Answered := by
  unfold onChunk
  rcases h with ⟨hopen, hreplies⟩ | ⟨haborted, hreplies⟩
  · rw [hopen, if_neg (by decide), hreplies]
    split_ifs
    · exact .inr ⟨rfl, _, _, rfl⟩
    · exact .inl ⟨rfl, rfl⟩
  · rw [if_pos haborted]
    exact .inr ⟨haborted, hreplies⟩

theorem answered_received (chunks : List (List UInt8)) : (received config chunks).Answered := by
  unfold received
  induction chunks using List.reverseRecOn with
  | nil => exact .inl ⟨rfl, rfl⟩
  | append_singleton chunks chunk ih =>
    rw [List.foldl_append, List.foldl_cons, List.foldl_nil]
    exact answered_onChunk ih

theorem onData_of_aborted {session : Session} {chunks : List (List UInt8)} {db : Db κ}
    (haborted : (received config chunks).aborted = true) :
    (onData config rules session chunks : Action κ ε Unit) env (start db) =
      (.ok (), ⟨{ db, replies := (received config chunks).replies }, []⟩) := by
  show (if (received config chunks).aborted then (pure () : Action κ ε Unit) else
    onEnd config rules session (received config chunks).chunks) env _ = _
  rw [if_pos haborted]
  rfl

theorem onData_of_open {session : Session} {chunks : List (List UInt8)} {db : Db κ}
    (hopen : (received config chunks).aborted = false)
    (hreplies : (received config chunks).replies = []) :
    (onData config rules session chunks : Action κ ε Unit) env (start db) =
      onEnd config rules session (received config chunks).chunks env (start db) := by
  show (if (received config chunks).aborted then (pure () : Action κ ε Unit) else
    onEnd config rules session (received config chunks).chunks) env _ = _
  rw [hopen, if_neg (by decide), hreplies]
  rfl

/-- The `catch` queues nothing and takes nothing out of the queue. -/
theorem wp_refuseMessage_keeps (e : SendError) :
    wp env (refuseMessage apiKeyId e : Action κ ε Unit) (fun _ w' =>
      e.reply ∈ w'.state.replies ∧ w'.state.db.emails = w.state.db.emails) w := by
  have hreply : ∀ replies : List Reply, e.reply ∈ replies ++ [e.reply] := fun _ =>
    List.mem_append_right _ (List.mem_singleton_self _)
  refine wp_bind.mpr (wp_get.mpr ⟨fun h' hh => ?_, fun _ he => (by cases he)⟩)
  cases hh
  refine wp_bind.mpr (wp_recover.mpr ?_)
  cases w.state.reservedDay with
  | none =>
    exact wp_call.mpr ⟨fun _ => ⟨fun _ hr => (by cases hr), fun _ _ => ⟨fun _ _ => ⟨hreply _, rfl⟩,
      fun _ he => (by cases he)⟩⟩, fun _ _ => ⟨fun _ _ => ⟨fun _ _ => ⟨hreply _, rfl⟩,
      fun _ he => (by cases he)⟩, fun _ he => (by cases he)⟩⟩
  | some day =>
    exact wp_call.mpr ⟨fun _ => ⟨fun _ hr => (by cases hr), fun _ _ => ⟨fun _ _ => ⟨hreply _, rfl⟩,
      fun _ he => (by cases he)⟩⟩, fun _ _ => ⟨fun _ _ => ⟨fun _ _ => ⟨hreply _, rfl⟩,
      fun _ he => (by cases he)⟩, fun _ he => (by cases he)⟩⟩

/-- **The failure that is answered 451 after the message is queued.** -/
theorem wp_acceptMessage_of_uncounted {session : Session} {bytes : List UInt8}
    {w₁ : World DbCall (Handler κ)} (hday : w₁.state.reservedDay = none)
    (hqueue : queueMessage config rules session apiKeyId bytes env w = (.ok (), w₁))
    (hfail : env w₁.calls.length = none) :
    wp env (acceptMessage config rules session apiKeyId bytes)
      (fun r w' => r = .error .unexpected ∧ w'.state = w₁.state) w := by
  refine wp_bind.mpr (wp.mono (wp.run (Q := fun _ _ => True) trivial) fun r w' ⟨_, hrun⟩ => ?_)
  obtain ⟨rfl, rfl⟩ := Prod.mk.inj (hrun.symm.trans hqueue)
  refine ⟨fun _ _ => wp_bind.mpr (wp_bind.mpr (wp_get.mpr ⟨fun h hh => ?_, fun _ he => (by cases he)⟩)),
    fun _ he => (by cases he)⟩
  cases hh
  refine wp_ite.mpr ⟨fun _ => wp_call.mpr ⟨fun _ => ⟨fun _ hr => (by cases hr), fun e he => ?_⟩,
    fun found hfound => ?_⟩, fun hsome => absurd hday hsome⟩
  · cases he
    exact ⟨rfl, rfl⟩
  · rw [hfail] at hfound
    cases hfound

/-- **All or nothing, exactly while the count of a queued message does not fail.** -/
theorem allOrNothing_iff {session : Session} {chunks : List (List UInt8)} {db : Db κ} :
    AllOrNothing db ((onData config rules session chunks : Action κ ε Unit) env (start db)).2 ↔
      CountedOnceQueued config rules env session chunks db := by
  have hstream : (received config chunks).Answered := answered_received chunks
  rcases hstream with ⟨hopen, hreplies⟩ | ⟨haborted, code, message, hreplies⟩
  · rw [onData_of_open hopen hreplies]
    unfold onEnd CountedOnceQueued
    cases huser : session.user.filter (· ≠ []) with
    | none =>
      exact ⟨fun _ => .inr fun _ _ hk => (by cases hk), fun _ =>
        allOrNothing_of_released rfl ⟨rfl, rfl⟩ fun _ _ _ => rfl⟩
    | some apiKeyId =>
      constructor
      · intro hall
        by_contra hcount
        obtain ⟨hquota, hcount⟩ := not_or.mp hcount
        push Not at hcount
        obtain ⟨key, w, hkey, _, hqueue, hfail⟩ := hcount
        cases hkey
        have hpost : wp env (queueMessage config rules session apiKeyId (received config chunks).chunks)
            (QueuesOrNothing (start db)) (start db) := wp_queueMessage
        unfold wp at hpost
        rw [hqueue] at hpost
        rcases hpost with ⟨_, email, hstate⟩ | ⟨_, he, _⟩
        swap
        · cases he
        have hfinal : wp env (recover (submitMessage config rules session apiKeyId
            (received config chunks).chunks) (refuseMessage apiKeyId) : Action κ ε Unit)
            (fun _ w' => SendError.unexpected.reply ∈ w'.state.replies ∧
              w'.state.db.emails = w.state.db.emails) (start db) := by
          refine wp_recover.mpr (wp_ite.mpr ⟨fun hpos => absurd hpos hquota, fun _ => ?_⟩)
          refine wp.mono (wp_acceptMessage_of_uncounted (by rw [hstate]; rfl) hqueue hfail)
            fun r w' ⟨hr, hw'⟩ => ?_
          subst hr
          refine ⟨fun _ hr => (by cases hr), fun e he => ?_⟩
          cases he
          exact hw' ▸ wp_refuseMessage_keeps .unexpected
        obtain ⟨hreply, hemails⟩ := hfinal
        have hsame := (hall.refused _ _ hreply).1.symm.trans hemails
        rw [hstate] at hsame
        have hlen : db.emails.length = (db.emails ++ [email]).length := congrArg List.length hsame
        rw [List.length_append, List.length_singleton] at hlen
        omega
      · intro hcount
        show wp env (recover (submitMessage config rules session apiKeyId
          (received config chunks).chunks) (refuseMessage apiKeyId) : Action κ ε Unit)
          (fun _ w' => AllOrNothing db w') (start db)
        refine wp_recover.mpr (wp.mono (wp_submitMessage (hcount.imp_right fun h w => h _ w rfl hopen))
          fun r w hpost => ?_)
        rcases hpost with ⟨rfl, hall⟩ | ⟨e, rfl, hrefusable⟩
        · exact ⟨fun _ _ => hall, fun _ he => (by cases he)⟩
        · refine ⟨fun _ hr => (by cases hr), fun e' he => ?_⟩
          cases he
          exact wp_refuseMessage hrefusable e
  · refine ⟨fun _ => .inr fun _ _ _ hopen => (by rw [haborted] at hopen; cases hopen), fun _ => ?_⟩
    rw [onData_of_aborted haborted]
    exact allOrNothing_of_released hreplies ⟨rfl, rfl⟩ fun _ _ _ => rfl

end Outcome

/-! ## A copy for every retry -/

/-- One message of one key, to one recipient. -/
def oneMessage : Rules Unit where
  toLowerCase := id
  simpleParser _ := some
    { from_ := some "app@acme.test".toList, to_ := [some "joe@dest.test".toList], cc := [],
      replyTo := [], subject := some "Hi".toList, content := () }
  contentProblem _ := none
  inputProblem _ := none
  hasBody _ := true
  domainNameIs name stored := name = stored

/-- The tables it is submitted to. -/
def oneKey : Db Unit where
  apiKeys := Table.empty.insert ⟨"key_1".toList, true, []⟩
  domains := Table.empty.insert ⟨"dom_1".toList, "acme.test".toList, true⟩

/-- Its session. -/
def oneSession : Session :=
  ⟨some "key_1".toList, some "app@acme.test".toList, ["joe@dest.test".toList]⟩

/-- The fifth call fails. -/
def fifthFails (i : ℕ) : Option Found := if i = 4 then none else some ⟨0, "msg_1".toList, true⟩

/-- **Without a quota, the failure of the count is answered 451 after the email is queued.** -/
theorem not_allOrNothing_uncounted :
    ¬ AllOrNothing oneKey ((onData ⟨1000, 0, false, true, false⟩ oneMessage oneSession
      [[0]] : Action Unit Empty Unit) fifthFails (start oneKey)).2 := by
  intro h
  have hreply : .error 451 "Local error in processing, try again later".toList ∈
      ((onData ⟨1000, 0, false, true, false⟩ oneMessage oneSession [[0]] :
        Action Unit Empty Unit) fifthFails (start oneKey)).2.state.replies := by decide +kernel
  have hqueued : ((onData ⟨1000, 0, false, true, false⟩ oneMessage oneSession [[0]] :
        Action Unit Empty Unit) fifthFails (start oneKey)).2.state.db.queued.length = 1 := by
    decide +kernel
  have hsame := congrArg List.length (h.refused _ _ hreply).2
  rw [hqueued] at hsame
  cases hsame

end BunMail.SmtpSubmission.Data
