import BunMail.Emails.MxRoute

/-!
# Failover, with what it contacted

`deliverWithFailover` for any caller: the hosts tried, the time for sessions, the rate budget and the
session runner are those of the call.  Beside the variables of its loop stands a log of the addresses
it turned to, each with the transactions charged a token there, the ones left without a token and the
session that was run.  Nested loops are flattened into a run over stops, and what one stop can do is
said once.
-/

namespace BunMail.Emails.FailoverLog

open Run SmtpError

/-! ## The call -/

/-- One transaction's outcome of a session. -/
structure MxSessionOutcome where
  key : Text
  error : Option Thrown := none
  tls : Option DeliveryTls := none
  rejected : List RejectedRecipient := []
  deriving DecidableEq

/-- The outcome before its host is set. -/
def MxSessionOutcome.routed (o : MxSessionOutcome) : RoutedOutcome :=
  { key := o.key, error := o.error, tls := o.tls, rejected := o.rejected }

/-- The outcome moves its transaction on to the next address. -/
def MxSessionOutcome.movesOn (o : MxSessionOutcome) : Bool := o.error.any failsOver

/-- What `runSession` is called with. -/
structure Session where
  address : Text
  mxHost : Text
  port : ℕ
  transactions : List MxTransaction
  deadlineMs : ℤ

/-- The arguments, and what each call made for the `i`-th host and its `j`-th address answers. -/
structure Call where
  domain : Text
  hosts : List Text
  transactions : List MxTransaction
  bucketOf : Text → Text
  maxHosts : ℕ
  deadlineMs : ℤ
  smtpPort : Text → ℕ
  /-- The checked addresses of the `i`-th host, or why it is refused. -/
  resolveMxAddresses : ℕ → Except Thrown (List Text)
  /-- `admission i j` is the answer of the rate budget by bucket and count; none without a budget. -/
  admission : ℕ → ℕ → Option (Text → ℕ → Grant)
  runSession : ℕ → ℕ → Session → List MxSessionOutcome
  elapsedMs : ℕ → ℕ → ℤ

/-! ## The loop -/

/-- One turn at an address, under the lock of its bucket. -/
structure Visit where
  /-- The place of the host in the list. -/
  host : ℕ
  mxHost : Text
  address : Text
  bucket : Text
  /-- A rate budget was asked. -/
  rated : Bool
  charged : List MxTransaction
  denied : List MxTransaction
  session : List MxTransaction
  outcomes : List MxSessionOutcome

/-- The keys that the session decided: accepted, or answered with a reply that decides. -/
def Visit.settled (v : Visit) : List Text :=
  (v.outcomes.filter fun o => !o.movesOn).map MxSessionOutcome.key

/-- The variables of the loop, and the log. -/
structure Progress extends Failover where
  visits : List Visit

/-- The transactions not yet charged to a bucket. -/
def uncharged (transactions : List MxTransaction) (bucket : Text) (charged : List (Text × Text)) :
    List MxTransaction :=
  transactions.filter fun t => (t.key, bucket) ∉ charged

section Loop

variable (call : Call)

/-- `attemptDeadlineError`. -/
def attemptDeadlineError (deadlineMs : ℤ) : Thrown := sessionDeadlineError deadlineMs.toNat

/-- What the budget of the bucket grants at an address. -/
def grantAt (i j : ℕ) (bucket : Text) (st : Progress) : Option Grant :=
  (call.admission i j).map fun answer => answer bucket (uncharged st.pending bucket st.charged).length

/-- The transactions that get a token at an address. -/
def chargedAt (i j : ℕ) (bucket : Text) (st : Progress) : List MxTransaction :=
  (grantAt call i j bucket st).elim [] fun grant =>
    (uncharged st.pending bucket st.charged).take grant.granted

/-- The transactions left without a token at an address. -/
def deniedAt (i j : ℕ) (bucket : Text) (st : Progress) : List MxTransaction :=
  (grantAt call i j bucket st).elim [] fun grant =>
    (uncharged st.pending bucket st.charged).drop grant.granted

/-- The outcomes of the transactions left without a token. -/
def deferAll (mxHost : Text) (deferred : List (Text × ℚ)) (done : Outcomes) : Outcomes :=
  deferred.foldl (fun done d =>
    done.put d.1 { key := d.1, mxHost := some mxHost, deferredMs := some d.2 }) done

/-- What runs under the lock: the admission, then the session of the transactions with a token. -/
def underLock (i j : ℕ) (mxHost address : Text) (st : Progress) :
    Progress × List MxSessionOutcome :=
  -- the budget may have run out while this waited for the lock
  if st.budgetMs ≤ 0 then
    (st, st.pending.map fun t =>
      { key := t.key, error := some (attemptDeadlineError call.deadlineMs) })
  else
    let bucket := call.bucketOf mxHost
    let (deferred, charged) :=
      admitTransactions st.pending bucket st.charged (grantAt call i j bucket st)
    let done := deferAll mxHost deferred st.done
    let session := st.pending.filter fun t => t.key ∉ deferred.map Prod.fst
    let outcomes := if session = [] then [] else
      call.runSession i j ⟨address, mxHost, call.smtpPort mxHost, session, st.budgetMs⟩
    let budgetMs := if session = [] then st.budgetMs else st.budgetMs - call.elapsedMs i j
    let visit : Visit := ⟨i, mxHost, address, bucket, (call.admission i j).isSome,
      chargedAt call i j bucket st, deniedAt call i j bucket st, session, outcomes⟩
    ({ st with done, charged, budgetMs, visits := st.visits ++ [visit] }, outcomes)

/-- Files the outcomes of a session; what is done is no longer pending. -/
def fileOutcomes (mxHost : Text) (st : Progress) (outcomes : List MxSessionOutcome) : Progress :=
  let filed := outcomes.foldl (fun st o => fileOutcome mxHost st o.routed) st.toFailover
  ⟨{ filed with pending := filed.pending.filter fun t => t.key ∉ filed.done.keys }, st.visits⟩

/-- The loop goes on. -/
def Progress.GoesOn (st : Progress) : Prop := ¬(st.pending = [] ∨ st.budgetMs ≤ 0)

instance (st : Progress) : Decidable st.GoesOn :=
  inferInstanceAs (Decidable ¬(st.pending = [] ∨ st.budgetMs ≤ 0))

/-- One address of a host. -/
def tryAddress (i : ℕ) (mxHost : Text) (st : Progress) (address : Text × ℕ) : Progress :=
  if st.GoesOn then
    let (st, outcomes) := underLock call i address.2 mxHost address.1 st
    fileOutcomes mxHost st outcomes
  else st

/-- A host that was refused. -/
def skipHost (st : Progress) (e : Thrown) : Progress :=
  if st.GoesOn then
    { st with lastFailure := st.pending.foldl (fun l t =>
        l.put t.key { key := t.key, error := some e }) st.lastFailure }
  else st

/-- One host: skipped with an error, or its first addresses in order. -/
def tryHost (st : Progress) (host : Text × ℕ) : Progress :=
  if st.GoesOn then
    match call.resolveMxAddresses host.2 with
    | .error e => skipHost st e
    | .ok addresses =>
      (addresses.take MAX_ADDRESSES_PER_HOST).zipIdx.foldl (tryAddress call host.2 host.1) st
  else st

/-- The hosts an attempt tries. -/
def Call.tried : List Text := call.hosts.take (min call.maxHosts MAX_MX_HOSTS_PER_ATTEMPT)

/-- The variables at the start. -/
def start : Progress :=
  ⟨⟨call.transactions, Table.empty, Table.empty, [], call.deadlineMs⟩, []⟩

/-- The attempt, host after host. -/
def attempt : Progress := call.tried.zipIdx.foldl (tryHost call) (start call)

/-- Delivers the transactions to the first host that takes them: every transaction gets an
outcome. -/
def deliverWithFailover : List RoutedOutcome :=
  let st := attempt call
  call.transactions.map fun t =>
    (st.done.get? t.key <|> st.lastFailure.get? t.key).getD
      { key := t.key
        error := some (.error
          { message := call.domain ++ ": no MX host could be tried".toList }) }

/-! ## Stops -/

/-- One item of the flattened loop: a host that is refused, or an address of a host. -/
inductive Stop
  | skip (e : Thrown)
  | address (i : ℕ) (mxHost : Text) (j : ℕ) (address : Text)

/-- The stops at a host. -/
def stopsAt (host : Text × ℕ) : List Stop :=
  match call.resolveMxAddresses host.2 with
  | .error e => [.skip e]
  | .ok addresses =>
    (addresses.take MAX_ADDRESSES_PER_HOST).zipIdx.map fun a => .address host.2 host.1 a.2 a.1

/-- The stops of the call, in order. -/
def stops : List Stop := call.tried.zipIdx.flatMap (stopsAt call)

/-- What happens at a stop. -/
def step (st : Progress) : Stop → Progress
  | .skip e => skipHost st e
  | .address i mxHost j address => tryAddress call i mxHost st (address, j)

end Loop

section Lemmas

variable {call : Call} {st : Progress}

theorem step_of_not_goesOn (h : ¬ st.GoesOn) (stop : Stop) : step call st stop = st := by
  cases stop with
  | skip e => exact if_neg h
  | address i mxHost j address => exact if_neg h

theorem run_of_not_goesOn (h : ¬ st.GoesOn) (l : List Stop) : run (step call) st l = st := by
  induction l with
  | nil => rfl
  | cons stop l ih => rw [run_cons, step_of_not_goesOn h, ih]

theorem tryHost_eq_run (st : Progress) (host : Text × ℕ) :
    tryHost call st host = run (step call) st (stopsAt call host) := by
  unfold tryHost
  split_ifs with h
  · unfold stopsAt
    cases call.resolveMxAddresses host.2 with
    | error e => rfl
    | ok addresses =>
      rw [run, List.foldl_map]
      rfl
  · exact (run_of_not_goesOn h _).symm

/-- **The loops are one run.** -/
theorem attempt_eq_run : attempt call = run (step call) (start call) (stops call) := by
  unfold attempt stops
  generalize start call = st
  induction call.tried.zipIdx generalizing st with
  | nil => rfl
  | cons host hosts ih =>
    rw [List.foldl_cons, List.flatMap_cons, run_append, ← tryHost_eq_run]
    exact ih _

/-! ## What a stop does -/

/-- Admission, in terms of who gets a token. -/
theorem admitTransactions_eq (i j : ℕ) (bucket : Text) :
    ∃ waitMs : ℚ, admitTransactions st.pending bucket st.charged (grantAt call i j bucket st) =
      ((deniedAt call i j bucket st).map fun t => (t.key, waitMs),
        st.charged ++ (chargedAt call i j bucket st).map fun t => (t.key, bucket)) := by
  unfold admitTransactions deniedAt chargedAt
  cases grantAt call i j bucket st with
  | none => exact ⟨0, by simp⟩
  | some grant =>
    refine ⟨grant.waitMs, ?_⟩
    simp only [Option.elim_some]
    unfold uncharged
    split_ifs with h
    · rw [h]
      simp
    · rfl

/-- Filing an outcome touches the two tables of outcomes only. -/
theorem fileOutcome_frame (mxHost : Text) (st : Failover) (o : RoutedOutcome) :
    (fileOutcome mxHost st o).pending = st.pending ∧ (fileOutcome mxHost st o).charged = st.charged ∧
      (fileOutcome mxHost st o).budgetMs = st.budgetMs := by
  unfold fileOutcome
  dsimp only
  split_ifs <;> exact ⟨rfl, rfl, rfl⟩

/-- The loop over the outcomes of a session. -/
def filed (mxHost : Text) (st : Failover) (outcomes : List MxSessionOutcome) : Failover :=
  outcomes.foldl (fun st o => fileOutcome mxHost st o.routed) st

theorem filed_frame (mxHost : Text) (st : Failover) (outcomes : List MxSessionOutcome) :
    (filed mxHost st outcomes).pending = st.pending ∧
      (filed mxHost st outcomes).charged = st.charged := by
  unfold filed
  induction outcomes generalizing st with
  | nil => exact ⟨rfl, rfl⟩
  | cons o outcomes ih =>
    obtain ⟨hp, hc, _⟩ := fileOutcome_frame mxHost st o.routed
    rw [List.foldl_cons, (ih _).1, (ih _).2]
    exact ⟨hp, hc⟩

/-- What a session decides is done. -/
theorem mem_done_filed {mxHost : Text} {st : Failover} {outcomes : List MxSessionOutcome} {k : Text} :
    k ∈ (filed mxHost st outcomes).done.keys ↔ k ∈ st.done.keys ∨
      k ∈ (outcomes.filter fun o => !o.movesOn).map MxSessionOutcome.key := by
  unfold filed
  induction outcomes generalizing st with
  | nil => simp
  | cons o outcomes ih =>
    rw [List.foldl_cons, ih, List.filter_cons]
    unfold fileOutcome
    show k ∈ (if o.movesOn = true then _ else _ : Failover).done.keys ∨ _ ↔ _
    cases o.movesOn with
    | true => simp
    | false =>
      simp only [Bool.false_eq_true, if_false, Bool.not_false, if_true, List.map_cons,
        List.mem_cons]
      rw [Table.mem_keys_put, or_assoc, or_left_comm]
      rfl

/-- A filed outcome of a session is no deferral. -/
theorem done_filed {mxHost : Text} {st : Failover} {outcomes : List MxSessionOutcome} {k : Text} :
    (filed mxHost st outcomes).done.get? k = st.done.get? k ∨
      k ∈ outcomes.map MxSessionOutcome.key ∧
        ∃ o, (filed mxHost st outcomes).done.get? k = some o ∧ o.deferredMs = none := by
  unfold filed
  induction outcomes generalizing st with
  | nil => exact .inl rfl
  | cons o outcomes ih =>
    rw [List.foldl_cons]
    rcases @ih (fileOutcome mxHost st o.routed) with h | ⟨hm, h⟩
    · rw [h, List.map_cons]
      unfold fileOutcome
      dsimp only
      split_ifs
      · exact .inl rfl
      · rw [Table.get?_put]
        split_ifs with hk
        · exact .inr ⟨List.mem_cons.mpr (.inl hk), _, rfl, rfl⟩
        · exact .inl rfl
    · exact .inr ⟨List.mem_cons_of_mem _ hm, h⟩

/-- No failure that moves on is a deferral. -/
def NoDeferrals (outcomes : Outcomes) : Prop :=
  ∀ k o, outcomes.get? k = some o → o.deferredMs = none

theorem NoDeferrals.put {outcomes : Outcomes} (h : NoDeferrals outcomes) {o : RoutedOutcome}
    (ho : o.deferredMs = none) (k : Text) : NoDeferrals (outcomes.put k o) := by
  intro k' o' ho'
  rw [Table.get?_put] at ho'
  split_ifs at ho' with hk
  · cases ho'
    exact ho
  · exact h k' o' ho'

theorem noDeferrals_filed {mxHost : Text} {st : Failover} (h : NoDeferrals st.lastFailure)
    (outcomes : List MxSessionOutcome) : NoDeferrals (filed mxHost st outcomes).lastFailure := by
  refine foldl_invariant (fun st : Failover => NoDeferrals st.lastFailure) (fun st o h => ?_) h _
  unfold fileOutcome
  dsimp only
  split_ifs
  · exact h.put rfl _
  · exact h

/-! ## What a stop does -/

/-- A turn at an address, with the loop going on. -/
structure Visited (call : Call) (st : Progress) (v : Visit) (st' : Progress) : Prop where
  visits : st'.visits = st.visits ++ [v]
  charged : st'.charged = st.charged ++ v.charged.map fun t => (t.key, v.bucket)
  /-- Whoever is not charged to the bucket gets a token there or is left without. -/
  asked : v.rated = true → v.charged ++ v.denied = uncharged st.pending v.bucket st.charged
  unasked : v.rated = false → v.charged = [] ∧ v.denied = []
  session : v.session = st.pending.filter fun t => t.key ∉ v.denied.map MxTransaction.key
  pending : st'.pending = st.pending.filter fun t => t.key ∉ st'.done.keys
  done : ∀ k, k ∈ st'.done.keys ↔
    k ∈ st.done.keys ∨ k ∈ v.denied.map MxTransaction.key ∨ k ∈ v.settled
  /-- An entry that is done stays, becomes a deferral, or is what the session answers. -/
  outcome : ∀ k, (k ∉ v.denied.map MxTransaction.key ∧ st'.done.get? k = st.done.get? k) ∨
    (k ∈ v.denied.map MxTransaction.key ∧ ∃ o, st'.done.get? k = some o ∧ o.deferredMs ≠ none) ∨
    (k ∈ v.outcomes.map MxSessionOutcome.key ∧ ∃ o, st'.done.get? k = some o ∧ o.deferredMs = none)
  answered : v.outcomes = [] ∨ ∃ i j deadlineMs, v.outcomes =
    call.runSession i j ⟨v.address, v.mxHost, call.smtpPort v.mxHost, v.session, deadlineMs⟩
  lastFailure : NoDeferrals st.lastFailure → NoDeferrals st'.lastFailure

theorem mem_deferAll {mxHost : Text} {deferred : List (Text × ℚ)} {done : Outcomes} {k : Text} :
    k ∈ (deferAll mxHost deferred done).keys ↔ k ∈ done.keys ∨ k ∈ deferred.map Prod.fst := by
  unfold deferAll
  induction deferred generalizing done with
  | nil => simp
  | cons d deferred ih =>
    rw [List.foldl_cons, ih, Table.mem_keys_put, List.map_cons, List.mem_cons, or_assoc,
      or_left_comm]

theorem get?_deferAll {mxHost : Text} {deferred : List (Text × ℚ)} {done : Outcomes} {k : Text} :
    (k ∉ deferred.map Prod.fst ∧ (deferAll mxHost deferred done).get? k = done.get? k) ∨
      k ∈ deferred.map Prod.fst ∧
        ∃ o, (deferAll mxHost deferred done).get? k = some o ∧ o.deferredMs ≠ none := by
  unfold deferAll
  induction deferred generalizing done with
  | nil => exact .inl ⟨List.not_mem_nil, rfl⟩
  | cons d deferred ih =>
    rw [List.foldl_cons, List.map_cons, List.mem_cons]
    rcases @ih (done.put d.1 { key := d.1, mxHost := some mxHost, deferredMs := some d.2 }) with
      ⟨hk, h⟩ | ⟨hk, h⟩
    · by_cases hd : k = d.1
      · refine .inr ⟨.inl hd, { key := d.1, mxHost := some mxHost, deferredMs := some d.2 }, ?_, ?_⟩
        · rw [h, hd, Table.get?_put_self]
        · exact Option.some_ne_none d.2
      · exact .inl ⟨by simp [hd, hk], by rw [h, Table.get?_put_ne hd]⟩
    · exact .inr ⟨.inr hk, h⟩

/-- The log entry of a turn at an address. -/
def visitAt (call : Call) (i j : ℕ) (mxHost address : Text) (st : Progress) : Visit :=
  let bucket := call.bucketOf mxHost
  let denied := deniedAt call i j bucket st
  let session := st.pending.filter fun t => t.key ∉ denied.map MxTransaction.key
  ⟨i, mxHost, address, bucket, (call.admission i j).isSome, chargedAt call i j bucket st, denied, session,
    if session = [] then [] else
      call.runSession i j ⟨address, mxHost, call.smtpPort mxHost, session, st.budgetMs⟩⟩

theorem underLock_eq (h : st.GoesOn) (i j : ℕ) (mxHost address : Text) :
    ∃ (waitMs : ℚ) (budgetMs : ℤ), underLock call i j mxHost address st =
      (⟨⟨st.pending,
        deferAll mxHost ((visitAt call i j mxHost address st).denied.map fun t => (t.key, waitMs)) st.done,
        st.lastFailure,
        st.charged ++ (visitAt call i j mxHost address st).charged.map fun t =>
          (t.key, call.bucketOf mxHost),
        budgetMs⟩, st.visits ++ [visitAt call i j mxHost address st]⟩,
        (visitAt call i j mxHost address st).outcomes) := by
  have hbudget : ¬ st.budgetMs ≤ 0 := fun hb => h (.inr hb)
  obtain ⟨waitMs, hadmission⟩ := @admitTransactions_eq call st i j (call.bucketOf mxHost)
  have hkeys : ∀ l : List MxTransaction,
      (l.map fun t => (t.key, waitMs)).map Prod.fst = l.map MxTransaction.key := by
    intro l
    rw [List.map_map]
    rfl
  refine ⟨waitMs, if (visitAt call i j mxHost address st).session = [] then st.budgetMs
    else st.budgetMs - call.elapsedMs i j, ?_⟩
  unfold underLock
  rw [if_neg hbudget]
  simp only [hadmission, hkeys]
  rfl

/-- **A turn at an address.** -/
theorem visited_tryAddress (h : st.GoesOn) (i : ℕ) (mxHost : Text) (a : Text × ℕ) :
    Visited call st (visitAt call i a.2 mxHost a.1 st) (tryAddress call i mxHost st a) := by
  obtain ⟨waitMs, budgetMs, hunder⟩ := @underLock_eq call st h i a.2 mxHost a.1
  unfold tryAddress
  rw [if_pos h, hunder]
  generalize hv : visitAt call i a.2 mxHost a.1 st = v
  have hbucket : v.bucket = call.bucketOf mxHost := by rw [← hv]; rfl
  have hhost : v.mxHost = mxHost := by rw [← hv]; rfl
  have hasked : (v.rated = true → v.charged ++ v.denied = uncharged st.pending v.bucket st.charged) ∧
      (v.rated = false → v.charged = [] ∧ v.denied = []) := by
    rw [← hv]
    unfold visitAt chargedAt deniedAt grantAt
    dsimp only
    cases call.admission i a.2 with
    | none => exact ⟨fun hr => (by cases hr), fun _ => ⟨rfl, rfl⟩⟩
    | some answer => exact ⟨fun _ => List.take_append_drop _ _, fun hr => (by cases hr)⟩
  dsimp only
  unfold fileOutcomes
  dsimp only
  rw [show (v.outcomes.foldl (fun st o => fileOutcome mxHost st o.routed) _ : Failover) =
    filed mxHost _ v.outcomes from rfl]
  have hkeys : (v.denied.map fun t => (t.key, waitMs)).map Prod.fst =
      v.denied.map MxTransaction.key := by
    rw [List.map_map]
    rfl
  obtain ⟨hpending, hcharged⟩ := filed_frame mxHost ⟨st.pending,
    deferAll mxHost (v.denied.map fun t => (t.key, waitMs)) st.done, st.lastFailure,
    st.charged ++ v.charged.map fun t => (t.key, call.bucketOf mxHost), budgetMs⟩ v.outcomes
  constructor
  · rfl
  · rw [hbucket]
    exact hcharged
  · exact hasked.1
  · exact hasked.2
  · rw [← hv]
    rfl
  · dsimp only
    rw [hpending]
  · intro k
    show k ∈ (filed mxHost _ v.outcomes).done.keys ↔ _
    rw [mem_done_filed, mem_deferAll, hkeys, or_assoc]
    rfl
  · intro k
    rcases @done_filed mxHost _ v.outcomes k with hk | hk
    · have hdefer := @get?_deferAll mxHost (v.denied.map fun t => (t.key, waitMs)) st.done k
      rw [hkeys] at hdefer
      rcases hdefer with ⟨hn, hd⟩ | ⟨hm, o, ho, hd⟩
      · exact .inl ⟨hn, hk.trans hd⟩
      · exact .inr (.inl ⟨hm, o, hk.trans ho, hd⟩)
    · exact .inr (.inr hk)
  · rw [← hv]
    unfold visitAt
    dsimp only
    split_ifs
    · exact .inl rfl
    · exact .inr ⟨_, _, _, rfl⟩
  · intro hl
    show NoDeferrals (filed mxHost _ v.outcomes).lastFailure
    exact noDeferrals_filed (by exact hl) v.outcomes

/-- A refused host leaves everything but the failures. -/
structure Skipped (st st' : Progress) : Prop where
  visits : st'.visits = st.visits
  charged : st'.charged = st.charged
  pending : st'.pending = st.pending
  done : st'.done = st.done
  lastFailure : NoDeferrals st.lastFailure → NoDeferrals st'.lastFailure

theorem skipped_skipHost (h : st.GoesOn) (e : Thrown) : Skipped st (skipHost st e) := by
  unfold skipHost
  rw [if_pos h]
  refine ⟨rfl, rfl, rfl, rfl, fun hl => ?_⟩
  exact foldl_invariant NoDeferrals (fun _ _ h => h.put rfl _) hl _

/-- **What a stop does**: nothing, a note of a refused host, or a turn. -/
theorem step_cases (call : Call) (st : Progress) (stop : Stop) :
    step call st stop = st ∨ Skipped st (step call st stop) ∨
      ∃ i mxHost j address, st.GoesOn ∧ stop = .address i mxHost j address ∧
        Visited call st (visitAt call i j mxHost address st) (step call st stop) := by
  by_cases h : st.GoesOn
  · cases stop with
    | skip e => exact .inr (.inl (skipped_skipHost h e))
    | address i mxHost j address =>
      exact .inr (.inr ⟨i, mxHost, j, address, h, rfl, visited_tryAddress h i mxHost (address, j)⟩)
  · exact .inl (step_of_not_goesOn h stop)

end Lemmas

end BunMail.Emails.FailoverLog
