import BunMail.Emails.QueueOutcome
import BunMail.Lib.Run

/-!
# The queue on one row

Any number of claims of one row, each with its writes on their way.  A step of a worker claims the
row, keeps its lease, gives its leases up, or is the next transaction of a claim; a transaction may
fail, before its commit or after it, and is then tried again as `recordSendOutcome` does.
-/

namespace BunMail.Emails.Queue

open Run

/-- A claim, what the world answered it, what it writes, and how often it has tried. -/
structure Writer where
  workerId : Text
  email : ClaimedEmail
  env : SendEnv
  effect : Effect
  tries : ℕ
  done : Bool

def Writer.claim (w : Writer) : Claim := ⟨w.email.id, w.email.attempts⟩

/-- The next write carries the events; the last one is the degraded write. -/
def Writer.withEvents (w : Writer) : Bool := w.tries < OUTCOME_TRIES

/-- The bounces its transaction files. -/
def Writer.bounces (w : Writer) : List InlineBounce :=
  match w.effect with
  | .release .. => []
  | .record sent => bouncesOf w.env.decision w.email sent

/-- The values its transaction releases the row with. -/
def Writer.values (w : Writer) : RowValues :=
  match w.effect with
  | .release values _ => values
  | .record sent => (decideRowOutcome w.env.decision w.email sent).values

/-- The events of the row its transaction enqueues. -/
def Writer.events (w : Writer) : List WebhookEvent :=
  match w.effect with
  | .release _ events => events
  | .record sent =>
    if w.withEvents then (decideRowOutcome w.env.decision w.email sent).events else []

/-- After a write that threw: an outcome is tried again until the degraded write was, any other
release is left to the lease. -/
def Writer.afterFailure (w : Writer) : Writer :=
  match w.effect with
  | .release .. => { w with done := true }
  | .record _ => { w with tries := w.tries + 1, done := !w.withEvents }

/-- A transaction that committed: the bounces of its outcome, the events it enqueued, and whether
it saved the outcome. -/
structure Commit where
  bounces : List InlineBounce
  events : List WebhookEvent
  saved : Bool

/-- The database, the claims of the row in order, and the transactions in commit order. -/
structure State where
  db : QueueDb
  writers : List Writer
  commits : List Commit

/-- A step of a worker.  Claims are named by their position. -/
inductive Action
  | claimNextEmails (workerId : Text) (now appNow : Time) (env : SendEnv)
  | renewLease (i : ℕ) (now : Time)
  | releaseOwnLeases (workerId : Text) (now : Time)
  | write (i : ℕ) (fate : Fate) (tx : TxEnv)

section Steps

variable (toLowerCase : Text → Text)

/-- The next transaction of a claim. -/
def Writer.transaction (w : Writer) (tx : TxEnv) (db : QueueDb) : Except String (QueueDb × Bool) :=
  match w.effect with
  | .release values events => .ok (releaseRowWithEvents w.workerId w.claim values events tx db)
  | .record sent =>
    writeOutcome toLowerCase w.workerId w.env.decision w.email w.claim sent w.withEvents tx db

/-- What a transaction that committed is remembered by. -/
def commitOf (w : Writer) (before after : QueueDb) (saved : Bool) : Commit :=
  ⟨w.bounces, after.outbox.drop before.outbox.length, saved⟩

/-- The writer a claim starts. -/
def Writer.start (workerId : Text) (env : SendEnv) (email : ClaimedEmail) : Writer where
  workerId := workerId
  email := email
  env := env
  effect := sendClaimedEmail toLowerCase env email ⟨email.id, email.attempts⟩
  tries := 0
  done := false

/-- A claim of the row starts a writer. -/
def State.claim (s : State) (workerId : Text) (now appNow : Time) (env : SendEnv) : State :=
  match Emails.claimNextEmails workerId now appNow s.db.row with
  | none => s
  | some email =>
    { s with
      db := { s.db with row := email.toEmailRow }
      writers := s.writers ++ [Writer.start toLowerCase workerId env email] }

/-- The next transaction of claim `i`. -/
def State.write (s : State) (i : ℕ) (fate : Fate) (tx : TxEnv) : State :=
  match s.writers[i]? with
  | none => s
  | some w =>
    if w.done then s
    else
      match fate, w.transaction toLowerCase tx s.db with
      | .rolledBack, _ | _, .error _ => { s with writers := s.writers.set i w.afterFailure }
      | .committed, .ok p =>
        { db := p.1
          writers := s.writers.set i { w with done := true }
          commits := s.commits ++ [commitOf w s.db p.1 p.2] }
      | .ackLost, .ok p =>
        { db := p.1
          writers := s.writers.set i w.afterFailure
          commits := s.commits ++ [commitOf w s.db p.1 p.2] }

def step (s : State) : Action → State
  | .claimNextEmails workerId now appNow env => s.claim toLowerCase workerId now appNow env
  | .renewLease i now =>
    match s.writers[i]? with
    | none => s
    | some w =>
      { s with db := { s.db with row := (Emails.renewLease w.workerId w.claim now s.db.row).1 } }
  | .releaseOwnLeases workerId now =>
    { s with db := { s.db with row := Emails.releaseOwnLeases workerId now s.db.row } }
  | .write i fate tx => s.write toLowerCase i fate tx

/-! ## The invariant -/

/-- The row is an email the suppressions may reference, and each claim is a claim of it with the
writes of `sendClaimedEmail`. -/
structure Inv (s : State) : Prop where
  listed : s.db.row.id ∈ s.db.list.emails
  claims : ∀ w ∈ s.writers, w.email.id = s.db.row.id
  effects : ∀ w ∈ s.writers, w.effect = sendClaimedEmail toLowerCase w.env w.email w.claim

variable {toLowerCase} {s : State} {w : Writer} {tx : TxEnv} {db : QueueDb}

theorem id_claimNextEmails {workerId : Text} {now appNow : Time} {row : EmailRow}
    {email : ClaimedEmail} (h : Emails.claimNextEmails workerId now appNow row = some email) :
    email.id = row.id := by
  obtain ⟨_, rfl⟩ := claimNextEmails_eq_some h
  rfl

theorem releaseRowWithEvents_keeps (workerId : Text) (claim : Claim) (values : RowValues)
    (events : List WebhookEvent) (tx : TxEnv) (db : QueueDb) :
    (releaseRowWithEvents workerId claim values events tx db).1.row.id = db.row.id ∧
      (releaseRowWithEvents workerId claim values events tx db).1.list = db.list := by
  cases h : heldBy workerId claim db.row with
  | true =>
    rw [releaseRowWithEvents_of_held h]
    exact ⟨id_releaseRow, rfl⟩
  | false =>
    rw [releaseRowWithEvents_of_not_held h]
    exact ⟨rfl, rfl⟩

/-- The recipients whose bounces a transaction announces. -/
def Writer.announces (w : Writer) : List Text :=
  if w.withEvents then w.bounces.map InlineBounce.recipient else []

variable (toLowerCase tx) in
/-- **One transaction** of a claim goes through: it files its bounces and then releases the row. -/
theorem transaction_ok (hid : w.email.id ∈ db.list.emails) :
    ∃ db', Files db db' w.announces ∧
      w.transaction toLowerCase tx db =
        .ok (releaseRowWithEvents w.workerId w.claim w.values w.events tx db') := by
  unfold Writer.transaction Writer.announces Writer.bounces Writer.values Writer.events
  cases he : w.effect with
  | release values events =>
    refine ⟨db, ⟨rfl, rfl, [], (List.append_nil _).symm, ?_⟩, rfl⟩
    cases w.withEvents <;> rfl
  | record sent =>
    exact writeOutcome_ok toLowerCase w.workerId w.env.decision w.claim sent w.withEvents tx hid

/-- Whatever a claim writes, the fence allows: a final status, a requeue, or its own deferral. -/
theorem writable_values (h : Inv toLowerCase s) (hw : w ∈ s.writers) :
    w.values.writable w.claim = true := by
  have hcases := sendClaimedEmail_cases toLowerCase w.env w.email w.claim
  rw [← h.effects w hw] at hcases
  unfold Writer.values
  rcases hcases with ⟨_, _, _, he, _⟩ | ⟨_, ⟨result, _, he⟩ | ⟨_, _, he⟩⟩
  · rw [he]
    rfl
  · rw [he]
    dsimp only
    rcases decideRowOutcome_cases w.env.decision w.email (sentAttemptOf w.env w.email result) with
      ⟨_, _, _, ho⟩ | ⟨_, _, _, ho⟩ | ⟨_, ho⟩
    · rw [ho]
      simp [RowValues.writable, deferredOutcome, RowOutcome.values, Writer.claim]
    · rw [ho]
      rfl
    · rw [ho]
      unfold terminalOutcome RowOutcome.values RowValues.writable finalStatusOf
      dsimp only
      split_ifs <;> rfl
  · rw [he]
    rfl

theorem inv_of_writers {db : QueueDb} {writers : List Writer} {commits : List Commit}
    (h : Inv toLowerCase s) (hid : db.row.id = s.db.row.id)
    (hemails : db.list.emails = s.db.list.emails)
    (hw : ∀ w ∈ writers, ∃ w₀ ∈ s.writers,
      w.email = w₀.email ∧ w.env = w₀.env ∧ w.effect = w₀.effect) :
    Inv toLowerCase ⟨db, writers, commits⟩ where
  listed := by rw [hid, hemails]; exact h.listed
  claims w hmem := by
    obtain ⟨w₀, h₀, he, _⟩ := hw w hmem
    rw [he, hid]
    exact h.claims w₀ h₀
  effects w hmem := by
    obtain ⟨w₀, h₀, hemail, henv, heff⟩ := hw w hmem
    rw [heff, henv, Writer.claim, hemail]
    exact h.effects w₀ h₀

/-- Replacing a claim by one of the same email and effect. -/
theorem exists_of_mem_set {i : ℕ} {w w' : Writer} (hw : s.writers[i]? = some w)
    (he : w'.email = w.email ∧ w'.env = w.env ∧ w'.effect = w.effect) :
    ∀ x ∈ s.writers.set i w', ∃ w₀ ∈ s.writers,
      x.email = w₀.email ∧ x.env = w₀.env ∧ x.effect = w₀.effect := by
  intro x hx
  rcases List.mem_or_eq_of_mem_set hx with hx | rfl
  · exact ⟨x, hx, rfl, rfl, rfl⟩
  · exact ⟨w, List.mem_of_getElem? hw, he⟩

theorem afterFailure_keeps (w : Writer) : w.afterFailure.email = w.email ∧
    w.afterFailure.env = w.env ∧ w.afterFailure.effect = w.effect := by
  unfold Writer.afterFailure
  split <;> exact ⟨rfl, rfl, rfl⟩

theorem inv_claim (h : Inv toLowerCase s) (workerId : Text) (now appNow : Time) (env : SendEnv) :
    Inv toLowerCase (s.claim toLowerCase workerId now appNow env) := by
  unfold State.claim
  cases hc : Emails.claimNextEmails workerId now appNow s.db.row with
  | none => exact h
  | some email =>
    have hid := id_claimNextEmails hc
    refine ⟨hid ▸ h.listed, fun w hw => ?_, fun w hw => ?_⟩
    · rcases List.mem_append.mp hw with hw | hw
      · exact (h.claims w hw).trans hid.symm
      · rw [List.mem_singleton.mp hw]
        rfl
    · rcases List.mem_append.mp hw with hw | hw
      · exact h.effects w hw
      · rw [List.mem_singleton.mp hw]
        rfl

/-- A change of the row's lease. -/
theorem inv_row (h : Inv toLowerCase s) {row : EmailRow} (hid : row.id = s.db.row.id) :
    Inv toLowerCase { s with db := { s.db with row := row } } :=
  inv_of_writers h hid rfl fun w hw => ⟨w, hw, rfl, rfl, rfl⟩

/-- A write does nothing, only counts a failed try, or commits the release of its claim after the
bounces. -/
theorem write_cases (h : Inv toLowerCase s) (i : ℕ) (fate : Fate) (tx : TxEnv) :
    s.write toLowerCase i fate tx = s ∧ (∀ w ∈ s.writers[i]?, w.done = true) ∨
    ∃ w, s.writers[i]? = some w ∧ w.done = false ∧ ∃ w',
      (w'.email = w.email ∧ w'.env = w.env ∧ w'.effect = w.effect) ∧
      (fate = .rolledBack ∧
          s.write toLowerCase i fate tx = { s with writers := s.writers.set i w' } ∨
        fate ≠ .rolledBack ∧ ∃ db', Files s.db db' w.announces ∧
          let p := releaseRowWithEvents w.workerId w.claim w.values w.events tx db'
          s.write toLowerCase i fate tx =
            ⟨p.1, s.writers.set i w', s.commits ++ [commitOf w s.db p.1 p.2]⟩) := by
  unfold State.write
  cases hw : s.writers[i]? with
  | none => exact .inl ⟨rfl, fun w hw' => (by cases hw')⟩
  | some w =>
    dsimp only
    by_cases hd : w.done = true
    · rw [if_pos hd]
      exact .inl ⟨rfl, fun w' hw' => Option.some.inj hw' ▸ hd⟩
    · refine .inr ⟨w, rfl, (Bool.not_eq_true _).mp hd, ?_⟩
      have hid : w.email.id ∈ s.db.list.emails :=
        (h.claims w (List.mem_of_getElem? hw)) ▸ h.listed
      obtain ⟨db', hfiles, hok⟩ := transaction_ok toLowerCase tx hid
      rw [if_neg hd, hok]
      cases fate with
      | rolledBack => exact ⟨_, afterFailure_keeps w, .inl ⟨rfl, rfl⟩⟩
      | committed =>
        exact ⟨{ w with done := true }, ⟨rfl, rfl, rfl⟩, .inr ⟨(by decide), db', hfiles, rfl⟩⟩
      | ackLost => exact ⟨_, afterFailure_keeps w, .inr ⟨(by decide), db', hfiles, rfl⟩⟩

/-- **Step.** -/
theorem inv_step (h : Inv toLowerCase s) (a : Action) : Inv toLowerCase (step toLowerCase s a) := by
  cases a with
  | claimNextEmails workerId now appNow env => exact inv_claim h workerId now appNow env
  | renewLease i now =>
    rw [step]
    cases s.writers[i]? with
    | none => exact h
    | some w =>
      apply inv_row h
      unfold Emails.renewLease
      split_ifs <;> rfl
  | releaseOwnLeases workerId now =>
    apply inv_row h
    unfold Emails.releaseOwnLeases
    split_ifs <;> rfl
  | write i fate tx =>
    rw [step]
    rcases write_cases h i fate tx with ⟨heq, _⟩ | ⟨w, hw, _, w', hw', ⟨_, heq⟩ | ⟨_, db', hf, heq⟩⟩
    · rw [heq]
      exact h
    · rw [heq]
      exact inv_of_writers h rfl rfl (exists_of_mem_set hw hw')
    · rw [heq]
      obtain ⟨hrow, hlist⟩ :=
        releaseRowWithEvents_keeps w.workerId w.claim w.values w.events tx db'
      refine inv_of_writers h (hrow.trans (congrArg _ hf.row)) ?_ (exists_of_mem_set hw hw')
      rw [hlist, hf.emails]

theorem inv_start {db : QueueDb} (h : db.row.id ∈ db.list.emails) :
    Inv toLowerCase ⟨db, [], []⟩ :=
  ⟨h, fun w hw => (by cases hw), fun w hw => (by cases hw)⟩

end Steps

/-! ## A working setup -/

/-- An email to one recipient. -/
def oneRecipient : EmailRow where
  id := "msg_1"
  apiKeyId := "key"
  fromAddress := "s@from.org"
  toAddress := "a@x.org"
  cc := none
  bcc := none
  subject := "Hello"
  tags := none
  status := .queued
  attempts := 0
  lastError := none
  messageId := none
  deliveryState := none
  sentAt := none
  nextAttemptAt := 0
  lockedBy := none
  leaseUntil := none
  createdAt := 0
  updatedAt := 0
  deletedAt := none

/-- A world with one MX host for every domain, and the answer of each host to a transaction. -/
def answering (result : Text → NodemailerResult) : MailerEnv where
  dns domain :=
    { resolveMx := .ok [⟨"mx.".toList ++ domain, 10⟩], resolve4 := .ok [], resolve6 := .ok []
      ties := fun _ => 0 }
  policy _ := none
  signed := .unsigned
  mintReturnPath _ _ _ _ := none
  bucketOf host := host
  hostInputs _ host := ⟨.ok ["192.0.2.1"], fun _ => ⟨none, fun _ => ⟨false, result host, none⟩, 0⟩⟩
  recordedAt _ := 0

/-- The reads of a claim by a working setup, with a retry window of three days. -/
def working (mailer : MailerEnv) : SendEnv where
  keyActive := true
  production := true
  domain := .ok none
  isSuppressed _ := false
  droppedAt := 0
  reads := .ok ()
  newMessageId := "<1@from.org>"
  signedReturnPath := false
  mailer := mailer
  decision := ⟨259200000, 0, 0⟩

/-- The database of a new row. -/
def newDb (row : EmailRow) : QueueDb := ⟨row, ⟨[row.id], Table.empty⟩, []⟩

/-- A write that commits at an instant. -/
def commitAt (i : ℕ) (now : Time) : Action :=
  .write i .committed ⟨now, now, fun recipient => "sup_".toList ++ recipient⟩

end BunMail.Emails.Queue
