import BunMail.Emails.Attempts
import BunMail.Emails.FailoverDeferrals

/-!
# A deferred row

The mailer's failover is a call of `deliverWithFailover` whose sessions are `runMxSession`.  A row
outcome `deferred` takes the attempt back and records no error, as if nothing had been tried.  That is
right exactly when no bucket of the attempt leaves a transaction without a token that a session held
already.
-/

namespace BunMail.Emails

open Run FailoverLog SmtpError

/-! ## The mailer's calls -/

section MxCall

variable (domain : Text) (verifiedTls : Bool) (bucketOf : Text → Text)
  (hosts : List (Text × HostInputs)) (transactions : List MxTransaction)

/-- The outcome as a session reports it. -/
def ofRouted (o : RoutedOutcome) : MxSessionOutcome := ⟨o.key, o.error, o.tls, o.rejected⟩

/-- The mailer's call: sessions of `runMxSession`, the default number of hosts and deadline. -/
def mxCall : Call where
  domain
  hosts := hosts.map Prod.fst
  transactions
  bucketOf
  maxHosts := MAX_MX_HOSTS_PER_ATTEMPT
  deadlineMs := SMTP_SESSION_DEADLINE_MS
  smtpPort _ := 25
  resolveMxAddresses i := (hosts[i]?).elim (.ok []) fun host => host.2.addresses
  admission i j := (hosts[i]?).bind fun host => (host.2.sessions j).grant.map fun grant _ _ => grant
  runSession i j session := (hosts[i]?).elim (session.transactions.map fun t => { key := t.key })
    fun host => (runMxSession verifiedTls session.mxHost session.deadlineMs.toNat session.transactions
      (host.2.sessions j).turn).map ofRouted
  elapsedMs i j := (hosts[i]?).elim 0 fun host => (host.2.sessions j).elapsedMs

/-- A session of `runMxSession` answers with one outcome for each transaction. -/
theorem oneOutcomeEach_mxCall :
    (mxCall domain verifiedTls bucketOf hosts transactions).OneOutcomeEach := by
  intro i j session
  refine List.Perm.of_eq ?_
  unfold mxCall
  dsimp only
  cases hosts[i]? with
  | none =>
    rw [Option.elim_none, List.map_map]
    rfl
  | some host =>
    rw [Option.elim_some, runMxSession, List.map_map, List.map_map]
    refine List.map_congr_left fun t _ => ?_
    exact sessionOutcome_key

variable {domain verifiedTls bucketOf hosts transactions}

/-- A session's outcome names no host and no wait. -/
theorem routed_sessionOutcome {mxHost : Text} {deadlineMs : ℕ} {t : MxTransaction}
    {turn : SessionTurn} : (ofRouted (sessionOutcome verifiedTls mxHost deadlineMs t turn)).routed =
      sessionOutcome verifiedTls mxHost deadlineMs t turn := by
  unfold sessionOutcome
  by_cases he : turn.expired = true
  · simp only [he, if_true]
    rfl
  · cases hr : turn.result <;> simp only [he]
    all_goals rfl

theorem routed_runMxSession {mxHost : Text} {deadlineMs : ℕ} {session : List MxTransaction}
    {turn : MxTransaction → SessionTurn} :
    ((runMxSession verifiedTls mxHost deadlineMs session turn).map ofRouted).map
      MxSessionOutcome.routed = runMxSession verifiedTls mxHost deadlineMs session turn := by
  unfold runMxSession
  rw [List.map_map, List.map_map]
  exact List.map_congr_left fun t _ => routed_sessionOutcome

theorem foldl_ofRouted {mxHost : Text} {deadlineMs : ℕ} {session : List MxTransaction}
    {turn : MxTransaction → SessionTurn} (st : Failover) :
    ((runMxSession verifiedTls mxHost deadlineMs session turn).map ofRouted).foldl
        (fun st o => fileOutcome mxHost st o.routed) st =
      (runMxSession verifiedTls mxHost deadlineMs session turn).foldl (fileOutcome mxHost) st := by
  conv_rhs => rw [← routed_runMxSession, List.foldl_map]

/-- An address of the call is an address of the mailer's loop. -/
theorem toFailover_tryAddress (st : Progress) {i : ℕ} {host : Text × HostInputs}
    (hi : hosts[i]? = some host) (a : Text × ℕ) :
    (FailoverLog.tryAddress (mxCall domain verifiedTls bucketOf hosts transactions) i host.1 st
        a).toFailover =
      Emails.tryAddress verifiedTls bucketOf host.1 st.toFailover (host.2.sessions a.2) := by
  have hgrant : grantAt (mxCall domain verifiedTls bucketOf hosts transactions) i a.2 (bucketOf host.1)
      st = (host.2.sessions a.2).grant := by
    unfold grantAt mxCall
    dsimp only
    rw [hi, Option.bind_some, Option.map_map]
    exact Option.map_id'
  unfold FailoverLog.tryAddress Emails.tryAddress underLock
  by_cases h : st.pending = [] ∨ st.budgetMs ≤ 0
  · have hstop : ¬ st.GoesOn := not_not.mpr h
    rw [if_neg hstop, if_pos h]
  · have hgo : st.GoesOn := h
    rw [if_pos hgo, if_neg h, if_neg fun hb => h (.inr hb)]
    rw [show (mxCall domain verifiedTls bucketOf hosts transactions).bucketOf = bucketOf from rfl]
    dsimp only
    rw [hgrant]
    obtain ⟨deferred, charged⟩ :=
      admitTransactions st.pending (bucketOf host.1) st.charged (host.2.sessions a.2).grant
    dsimp only
    unfold fileOutcomes
    by_cases hs : (st.pending.filter fun t => t.key ∉ deferred.map Prod.fst) = []
    · simp only [hs, if_true, List.foldl_nil]
      rfl
    · simp only [hs, if_false]
      have hrun : (mxCall domain verifiedTls bucketOf hosts transactions).runSession i a.2
          ⟨a.1, host.1, 25, st.pending.filter fun t => t.key ∉ deferred.map Prod.fst, st.budgetMs⟩ =
          (runMxSession verifiedTls host.1 st.budgetMs.toNat
            (st.pending.filter fun t => t.key ∉ deferred.map Prod.fst)
            (host.2.sessions a.2).turn).map ofRouted := by
        unfold mxCall
        dsimp only
        rw [hi]
        rfl
      have helapsed : (mxCall domain verifiedTls bucketOf hosts transactions).elapsedMs i a.2 =
          (host.2.sessions a.2).elapsedMs := by
        unfold mxCall
        dsimp only
        rw [hi]
        rfl
      rw [show (mxCall domain verifiedTls bucketOf hosts transactions).smtpPort host.1 = 25 from rfl,
        hrun, helapsed, foldl_ofRouted]
      rfl

theorem toFailover_tryHost (st : Progress) {i : ℕ} {host : Text × HostInputs}
    (hi : hosts[i]? = some host) :
    (FailoverLog.tryHost (mxCall domain verifiedTls bucketOf hosts transactions) st
        (host.1, i)).toFailover = Emails.tryHost verifiedTls bucketOf st.toFailover host := by
  unfold FailoverLog.tryHost Emails.tryHost
  by_cases h : st.pending = [] ∨ st.budgetMs ≤ 0
  · have hstop : ¬ st.GoesOn := not_not.mpr h
    rw [if_neg hstop, if_pos h]
  · have hgo : st.GoesOn := h
    rw [if_pos hgo, if_neg h]
    have hresolve : (mxCall domain verifiedTls bucketOf hosts transactions).resolveMxAddresses i =
        host.2.addresses := by
      unfold mxCall
      dsimp only
      rw [hi]
      rfl
    rw [hresolve]
    cases host.2.addresses with
    | error e =>
      dsimp only
      unfold skipHost
      rw [if_pos hgo]
    | ok addresses =>
      dsimp only
      rw [List.range_eq_range', ← List.zipIdx_map_snd, List.foldl_map]
      generalize (addresses.take MAX_ADDRESSES_PER_HOST).zipIdx = l
      clear h hgo
      induction l generalizing st with
      | nil => rfl
      | cons a l ih =>
        rw [List.foldl_cons, List.foldl_cons, ih, toFailover_tryAddress st hi a]

/-- **The mailer's failover is the call.** -/
theorem deliverWithFailover_eq (domain : Text) (verifiedTls : Bool) (bucketOf : Text → Text)
    (hosts : List (Text × HostInputs)) (transactions : List MxTransaction) :
    Emails.deliverWithFailover domain verifiedTls bucketOf hosts transactions =
      FailoverLog.deliverWithFailover (mxCall domain verifiedTls bucketOf hosts transactions) := by
  have hstate : (attempt (mxCall domain verifiedTls bucketOf hosts transactions)).toFailover =
      (hosts.take MAX_MX_HOSTS_PER_ATTEMPT).foldl (Emails.tryHost verifiedTls bucketOf)
        ⟨transactions, Table.empty, Table.empty, [], SMTP_SESSION_DEADLINE_MS⟩ := by
    unfold attempt Call.tried
    rw [show (mxCall domain verifiedTls bucketOf hosts transactions).hosts = hosts.map Prod.fst from
      rfl, show min (mxCall domain verifiedTls bucketOf hosts transactions).maxHosts
        MAX_MX_HOSTS_PER_ATTEMPT = MAX_MX_HOSTS_PER_ATTEMPT from rfl, ← List.map_take,
      List.zipIdx_map, List.foldl_map]
    have hmem : ∀ p ∈ (hosts.take MAX_MX_HOSTS_PER_ATTEMPT).zipIdx, hosts[p.2]? = some p.1 := by
      rintro ⟨host, i⟩ hp
      have hget := List.mem_zipIdx_iff_getElem?.mp hp
      rw [List.getElem?_take] at hget
      split_ifs at hget
      exact hget
    conv_rhs => rw [← List.zipIdx_map_fst 0 (hosts.take MAX_MX_HOSTS_PER_ATTEMPT), List.foldl_map]
    rw [show (⟨transactions, Table.empty, Table.empty, [], SMTP_SESSION_DEADLINE_MS⟩ : Failover) =
      (start (mxCall domain verifiedTls bucketOf hosts transactions)).toFailover from rfl]
    generalize (hosts.take MAX_MX_HOSTS_PER_ATTEMPT).zipIdx = l at hmem
    generalize start _ = st
    induction l generalizing st with
    | nil => rfl
    | cons p l ih =>
      rw [List.foldl_cons, List.foldl_cons, ih fun q hq => hmem q (List.mem_cons_of_mem _ hq)]
      rw [← toFailover_tryHost st (hmem p List.mem_cons_self)]
      rfl
  unfold Emails.deliverWithFailover FailoverLog.deliverWithFailover
  dsimp only
  rw [← hstate]
  rfl

end MxCall

/-! ## The calls of an attempt -/

section Row

variable {toLowerCase : Text → Text} {env : SendEnv} {email : ClaimedEmail} {result : SendMailResult}

/-- The failover of a plan. -/
def planCall (env : MailerEnv) (plan : MxSessionPlan) : Call :=
  mxCall (Text.join "," plan.domains) plan.verifiedTls env.bucketOf
    (plan.hosts.map fun host => (host, env.hostInputs plan host)) plan.transactions

/-- The failovers of a call of the mailer; none for a message that cannot be composed. -/
def mailerCalls (env : MailerEnv) (plans : Plans) : List Call :=
  match env.signed with
  | .uncomposable _ => []
  | _ => plans.sessions.rows.map fun e => planCall env e.2

variable (toLowerCase env email) in
/-- The plans of the attempt of a claim. -/
def plansOf : Plans :=
  planSessions toLowerCase (sendOptionsOf env email) env.mailer
    (startState toLowerCase (sendOptionsOf env email) env.mailer)

variable (toLowerCase env email) in
/-- The failovers of the attempt of a claim. -/
def callsOf : List Call := mailerCalls env.mailer (plansOf toLowerCase env email)

/-- The row outcome of a pure deferral. -/
def RowOutcome.isDeferred : RowOutcome → Bool
  | .deferred .. => true
  | .retry .. | .terminal .. => false

variable (toLowerCase env email) in
/-- A deferral means that nothing was tried: of a transaction, and of the whole row. -/
structure DeferralsUntried (sent : SentAttempt) : Prop where
  outcomes : ∀ call ∈ callsOf toLowerCase env email, DeferredUntried call
  row : (decideRowOutcome env.decision email sent).isDeferred = true →
    ∀ call ∈ callsOf toLowerCase env email, ∀ v ∈ (attempt call).visits, v.session = []

instance (sent : SentAttempt) : Decidable (DeferralsUntried toLowerCase env email sent) :=
  decidable_of_iff ((∀ call ∈ callsOf toLowerCase env email, DeferredUntried call) ∧
      ((decideRowOutcome env.decision email sent).isDeferred = true →
        ∀ call ∈ callsOf toLowerCase env email, ∀ v ∈ (attempt call).visits, v.session = []))
    ⟨fun h => ⟨h.1, h.2⟩, fun h => ⟨h.outcomes, h.row⟩⟩

/-- Every outcome of a failover is an outcome of the attempt. -/
theorem mem_allOutcomes {call : Call} (hc : call ∈ callsOf toLowerCase env email)
    {o : RoutedOutcome} (ho : o ∈ FailoverLog.deliverWithFailover call) :
    o ∈ allOutcomes env.mailer (plansOf toLowerCase env email) := by
  unfold callsOf mailerCalls at hc
  unfold allOutcomes sendToMxHosts
  cases hs : env.mailer.signed with
  | uncomposable error =>
    rw [hs] at hc
    cases hc
  | unsigned | signed | signingFailed _ =>
    rw [hs] at hc
    obtain ⟨e, he, rfl⟩ := List.mem_map.mp hc
    refine List.mem_flatMap.mpr ⟨e, he, ?_⟩
    dsimp only
    rw [deliverWithFailover_eq]
    exact ho

/-- A session of the attempt gives its transactions an outcome each. -/
theorem exists_outcome {call : Call} {v : Visit} (hv : v ∈ (attempt call).visits)
    {t : MxTransaction} (ht : t ∈ v.session) :
    ∃ o ∈ FailoverLog.deliverWithFailover call, o.key = t.key := by
  have hmem : t ∈ call.transactions := ((inv_attempt call).sublist v hv).1.subset ht
  have hkey : t.key ∈ (FailoverLog.deliverWithFailover call).map RoutedOutcome.key := by
    rw [keys_deliverWithFailover]
    exact List.mem_map_of_mem hmem
  obtain ⟨o, ho, heq⟩ := List.mem_map.mp hkey
  exact ⟨o, ho, heq⟩

/-! ## What the row outcome sees -/

/-- An entry that is pending when the mailer starts was pending before the attempt, or is new. -/
theorem prior_of_pending (hr : Ready toLowerCase (email.ledger toLowerCase)) {key : Text}
    {group : DeliveryGroup}
    (hg : (startState toLowerCase (sendOptionsOf env email) env.mailer).get? key = some group)
    (hs : group.status = .retry) {status : DeliveryGroupStatus}
    (hp : (priorStatusesOf (existingStateOf env email)).get? key = some status) :
    status = .retry := by
  by_contra hne
  have hal := (along_spares_startOps (e := email.envelope) (a := attemptOf env email false) hr).1
  rw [startState_ledger false] at hg
  unfold existingStateOf at hp
  unfold EmailRow.ledger at hal hg
  cases hd : email.deliveryState with
  | none =>
    rw [hd] at hp
    cases hp
  | some state =>
    rw [hd] at hp hal hg
    dsimp only at hal hg
    unfold startOps at hal hg
    rw [if_pos rfl] at hal hg
    have hp' : (key, status) ∈ (priorStatusesOf (some
        (dropSuppressedRecipients env.isSuppressed env.droppedAt state))).rows :=
      Table.get?_eq_some_iff.mp hp
    rw [rows_priorStatusesOf] at hp'
    obtain ⟨⟨k, g⟩, hmem, heq⟩ := List.mem_map.mp hp'
    obtain ⟨rfl, rfl⟩ := Prod.mk.inj heq
    -- a settled entry would still be there, settled
    have hstay := invariant (fun s : DeliveryState => s.get? k = some g)
      (fun _ _ hg hsp => get?_applyOp_of_settled hsp hg hne) (Table.get?_eq_some_iff.mpr hmem) hal.2
    have hstart : some g = some group := hstay.symm.trans hg
    rw [Option.some.inj hstart] at hne
    exact hne hs

/-- Recording outcomes takes no key away. -/
theorem mem_keys_recordOutcome {state : DeliveryState} {outcome : RoutedOutcome} {messageId : Text}
    {order : List Text} {mtaSts : Option DeliveryMtaSts} {now : Time} {key : Text}
    (hk : key ∈ state.keys) :
    key ∈ (recordOutcome toLowerCase state outcome messageId order mtaSts now).keys := by
  by_cases hne : key = outcome.key
  · cases hg : state.get? outcome.key with
    | none => rwa [recordOutcome_of_none hg]
    | some group =>
      rcases recordOutcome_cases hg with ⟨_, heq⟩ | heq
      · rw [heq, ← Table.get?_isSome_iff, get?_fileRefused_of_mem (Table.mem_keys_put.mpr (.inl hne)),
          hne, Table.get?_put_self]
        rfl
      · rw [heq]
        exact Table.mem_keys_put.mpr (.inl hne)
  · rw [← Table.get?_isSome_iff, get?_recordOutcome_ne hne hk]
    exact Table.get?_isSome_iff.mpr hk

theorem mem_keys_run {ops : List StateOp} {keys : List Text} {state : DeliveryState} {key : Text}
    (ht : ops.map StateOp.target = keys.map some) (hk : key ∈ state.keys) :
    key ∈ (run (applyOp toLowerCase) state ops).keys := by
  induction ops generalizing keys state with
  | nil => exact hk
  | cons op ops ih =>
    cases keys with
    | nil => cases ht
    | cons k keys =>
      rw [List.map_cons, List.map_cons, List.cons.injEq] at ht
      refine ih ht.2 ?_
      cases op with
      | recordUnsent key' unsent mtaSts now => rwa [applyOp, keys_recordUnsent]
      | recordOutcome outcome messageId order mtaSts now => exact mem_keys_recordOutcome hk
      | _ => cases ht.1

/-- An outcome that is recorded on an entry is its last. -/
theorem exists_recorded {o : RoutedOutcome}
    (ho : o ∈ allOutcomes env.mailer (plansOf toLowerCase env email)) (hn : o.deferredMs = none)
    (h : sendMail toLowerCase (sendOptionsOf env email) env.mailer = .ok result) :
    (∃ group, (startState toLowerCase (sendOptionsOf env email) env.mailer).get? o.key = some group ∧
      group.status = .retry) ∧
      (∃ group, result.deliveryState.get? o.key = some group) ∧
      o.key ∉ (sentAttemptOf env email result).deferredKeys := by
  obtain ⟨hstate, hdef⟩ := sendMail_ledger h
  have hplans : planSessions toLowerCase ((attemptOf env email false).options email.envelope none)
      env.mailer (startState toLowerCase (sendOptionsOf env email) env.mailer) =
      plansOf toLowerCase env email := rfl
  have hle := count_targets_le toLowerCase
    (startState toLowerCase (sendOptionsOf env email) env.mailer)
    ((attemptOf env email false).options email.envelope none) env.mailer o.key
  rw [hplans, List.count_append, ← keys_allOutcomes env.mailer] at hle
  have hone := List.nodup_iff_count_le_one.mp (nodup_pendingKeys
    (startState toLowerCase (sendOptionsOf env email) env.mailer)) o.key
  have hpos : 0 < ((allOutcomes env.mailer (plansOf toLowerCase env email)).map
      RoutedOutcome.key).count o.key := List.count_pos_iff.mpr (List.mem_map_of_mem ho)
  obtain ⟨group, hg, hs, _⟩ := mem_pendingKeys.mp (List.count_pos_iff.mp (by omega :
    0 < (pendingKeys (startState toLowerCase (sendOptionsOf env email) env.mailer)).count o.key))
  refine ⟨⟨group, hg, hs⟩, ?_, ?_⟩
  · -- no step takes the key away
    rw [hstate]
    have hmem := @mem_keys_run toLowerCase _ _ _ _ (@targets_recordOps toLowerCase
      (startState toLowerCase (sendOptionsOf env email) env.mailer)
      ((attemptOf env email false).options email.envelope none) env.mailer) (mem_keys_of_get? hg)
    exact Option.isSome_iff_exists.mp (Table.get?_isSome_iff.mpr hmem)
  · -- the outcomes of a key are one
    rw [hdef]
    intro hk
    unfold deferredOps at hk
    rw [hplans] at hk
    have hsplit := (List.filter_append_perm (fun o : RoutedOutcome => o.deferredMs.isSome)
      (allOutcomes env.mailer (plansOf toLowerCase env email))).map RoutedOutcome.key
    have hcount := hsplit.count_eq o.key
    rw [List.map_append, List.count_append] at hcount
    have hdeferred := List.count_pos_iff.mpr hk
    have hrecorded : 0 < (((allOutcomes env.mailer (plansOf toLowerCase env email)).filter
        fun o => !o.deferredMs.isSome).map RoutedOutcome.key).count o.key := by
      rw [List.count_pos_iff]
      refine List.mem_map_of_mem (List.mem_filter.mpr ⟨ho, ?_⟩)
      rw [hn]
      rfl
    omega

/-- An attempt that records an outcome of a session has attempted something. -/
theorem attempted_of_recorded (hr : Ready toLowerCase (email.ledger toLowerCase))
    (h : sendMail toLowerCase (sendOptionsOf env email) env.mailer = .ok result) {o : RoutedOutcome}
    (ho : o ∈ allOutcomes env.mailer (plansOf toLowerCase env email)) (hn : o.deferredMs = none) :
    attempted (sentAttemptOf env email result) = true := by
  obtain ⟨⟨start, hstart, hpending⟩, ⟨group, hg⟩, hkey⟩ := exists_recorded ho hn h
  have hrow : (o.key, group) ∈ (sentAttemptOf env email result).deliveryState.rows :=
    Table.get?_eq_some_iff.mp hg
  unfold attempted
  rw [Bool.or_eq_true]
  by_cases hs : group.status = .retry
  · left
    unfold realRetry
    exact List.any_eq_true.mpr ⟨_, hrow, by simp [hs, hkey]⟩
  · right
    refine List.any_eq_true.mpr ⟨_, hrow, ?_⟩
    have hprior : (sentAttemptOf env email result).priorStatuses.get? o.key ≠ some group.status :=
      fun hp => hs (prior_of_pending hr hstart hpending hp)
    have hsettled : group.status = .sent ∨ group.status = .failed := by
      cases hst : group.status with
      | sent => exact .inl rfl
      | failed => exact .inr rfl
      | retry => exact absurd hst hs
    simp [hprior, hsettled]

/-- A row outcome that takes the attempt back is one of an attempt that did nothing. -/
theorem attempted_of_isDeferred {decision : DecisionEnv} {sent : SentAttempt}
    (h : (decideRowOutcome decision email sent).isDeferred = true) : attempted sent = false := by
  rcases decideRowOutcome_cases decision email sent with ⟨_, _, ha, _⟩ | ⟨_, _, _, ho⟩ | ⟨_, ho⟩
  · exact ha
  · rw [ho] at h
    cases h
  · rw [ho] at h
    cases h

/-- While deferred outcomes are of untried transactions, a deferred row ran no session. -/
theorem no_session_of_isDeferred (hr : Ready toLowerCase (email.ledger toLowerCase))
    (h : sendMail toLowerCase (sendOptionsOf env email) env.mailer = .ok result)
    (hu : ∀ call ∈ callsOf toLowerCase env email, DeferredUntried call)
    (hd : (decideRowOutcome env.decision email (sentAttemptOf env email result)).isDeferred = true) :
    ∀ call ∈ callsOf toLowerCase env email, ∀ v ∈ (attempt call).visits, v.session = [] := by
  intro call hcall v hv
  by_contra hne
  obtain ⟨t, ht⟩ := List.exists_mem_of_ne_nil _ hne
  obtain ⟨o, ho, hkey⟩ := exists_outcome hv ht
  have htried : (attempt call).Tried o.key := ⟨v, hv, hkey ▸ List.mem_map_of_mem ht⟩
  have hn : o.deferredMs = none := by
    by_contra hdef
    exact hu call hcall o ho hdef htried
  have hatt := attempted_of_recorded hr h (mem_allOutcomes hcall ho) hn
  rw [attempted_of_isDeferred hd] at hatt
  cases hatt

/-- **One attempt.** Deferrals mean that nothing was tried exactly when every failover of the attempt
spares the tried transactions. -/
theorem deferralsUntried_iff (hr : Ready toLowerCase (email.ledger toLowerCase))
    (h : sendMail toLowerCase (sendOptionsOf env email) env.mailer = .ok result) :
    DeferralsUntried toLowerCase env email (sentAttemptOf env email result) ↔
      ∀ call ∈ callsOf toLowerCase env email, SparesAllTried call := by
  have hcalls : ∀ call ∈ callsOf toLowerCase env email,
      (DeferredUntried call ↔ SparesAllTried call) := by
    intro call hc
    apply deferredUntried_iff
    unfold callsOf mailerCalls at hc
    cases hs : env.mailer.signed with
    | uncomposable error =>
      rw [hs] at hc
      cases hc
    | unsigned | signed | signingFailed _ =>
      rw [hs] at hc
      obtain ⟨e, _, rfl⟩ := List.mem_map.mp hc
      exact oneOutcomeEach_mxCall _ _ _ _ _
  constructor
  · exact fun hd call hc => (hcalls call hc).mp (hd.outcomes call hc)
  · intro hs
    have hu : ∀ call ∈ callsOf toLowerCase env email, DeferredUntried call :=
      fun call hc => (hcalls call hc).mpr (hs call hc)
    exact ⟨hu, no_session_of_isDeferred hr h hu⟩

end Row

/-! ## Whole runs -/

section Runs

variable {toLowerCase : Text → Text} {db : QueueDb}

/-- Every turn leaves the ledger of the row ready for the next attempt. -/
theorem ready_runTurn (hid : db.row.id ∈ db.list.emails)
    (hr : Ready toLowerCase (db.row.ledger toLowerCase)) (turn : ClaimTurn) :
    (runTurn toLowerCase db turn).row.id ∈ (runTurn toLowerCase db turn).list.emails ∧
      Ready toLowerCase ((runTurn toLowerCase db turn).row.ledger toLowerCase) := by
  obtain ⟨hid', ⟨_, hd, ha⟩ | ⟨x, result, _, hbefore, hafter, hsaved⟩⟩ := turn_spec toLowerCase hid turn
  · exact ⟨hid', ledger_congr hd ha ▸ hr⟩
  · refine ⟨hid', ?_⟩
    rw [← hafter]
    exact (delivery_of_saved hsaved (hbefore ▸ hr)).1

theorem ready_turns (hid : db.row.id ∈ db.list.emails)
    (hr : Ready toLowerCase (db.row.ledger toLowerCase)) (turns : List ClaimTurn) :
    Ready toLowerCase ((run (runTurn toLowerCase) db turns).row.ledger toLowerCase) := by
  induction turns generalizing db with
  | nil => exact hr
  | cons turn turns ih =>
    obtain ⟨hid', hr'⟩ := ready_runTurn hid hr turn
    exact ih hid' hr'

variable (toLowerCase) in
/-- `P` holds of every attempt of a sequence of claims that reaches the mailer, saved or not. -/
def EveryAttempt (db : QueueDb) (turns : List ClaimTurn)
    (P : SendEnv → ClaimedEmail → SentAttempt → Prop) : Prop :=
  ∀ before turn, before ++ [turn] <+: turns →
    ∀ email ∈ turn.email? (run (runTurn toLowerCase) db before).row, ∀ result,
      sendMail toLowerCase (sendOptionsOf turn.env email) turn.env.mailer = .ok result →
        P turn.env email (sentAttemptOf turn.env email result)

/-- **A deferral means that nothing was tried**, of any call of `deliverWithFailover` and of any
attempt of a row, exactly while no bucket of the attempt leaves a transaction without a token that a
session of it contained. -/
theorem deferral_untried_iff {turns : List ClaimTurn} (hid : db.row.id ∈ db.list.emails)
    (ho : Origin toLowerCase db.row.envelope (db.row.ledger toLowerCase)) :
    (∀ call : Call, call.OneOutcomeEach → (DeferredUntried call ↔ SparesAllTried call)) ∧
      EveryAttempt toLowerCase db turns fun env email sent =>
        (DeferralsUntried toLowerCase env email sent ↔
          ∀ call ∈ callsOf toLowerCase env email, SparesAllTried call) := by
  refine ⟨fun call hrun => deferredUntried_iff hrun, ?_⟩
  intro before turn _ email hemail result hsend
  refine deferralsUntried_iff ?_ hsend
  obtain ⟨_, hclaim⟩ := claimNextEmails_eq_some (Option.mem_def.mp hemail)
  have hledger : email.ledger toLowerCase =
      (run (runTurn toLowerCase) db before).row.ledger toLowerCase := by
    rw [hclaim]
    rfl
  rw [hledger]
  exact ready_turns hid (ready_of_origin ho) before

end Runs

/-! ## A refused connection hidden by a deferral -/

open Queue

/-- Two hosts, each a bucket of its own: the first refuses the connection, and the budget of the
second is used up. -/
def refusedThenOverBudget : MailerEnv :=
  { answering fun _ => .resolved [] [] with
    dns := fun _ =>
      { resolveMx := .ok [⟨"mx1.org", 10⟩, ⟨"mx2.net", 20⟩], resolve4 := .ok [], resolve6 := .ok []
        ties := fun _ => 0 }
    hostInputs := fun _ host =>
      if host = "mx1.org".toList then
        ⟨.ok ["192.0.2.1"], fun _ => ⟨some ⟨1, 0⟩, fun _ =>
          ⟨false, .threw (.error { message := "connect ECONNREFUSED 192.0.2.1:25" }), none⟩, 5⟩⟩
      else
        ⟨.ok ["192.0.2.2"], fun _ => ⟨some ⟨0, 60000⟩, fun _ => ⟨false, .resolved [] [], none⟩, 0⟩⟩ }

/-- A claim of a new row whose only recipient meets them. -/
def hiddenTurn : ClaimTurn where
  workerId := "w"
  claimedAt := 0
  claimedAppAt := 0
  env := working refusedThenOverBudget
  fate _ := .committed
  tx _ := ⟨0, 0, id⟩

theorem deferral_untried_iff_overBudget :
    (∀ call : Call, call.OneOutcomeEach → (DeferredUntried call ↔ SparesAllTried call)) ∧
      EveryAttempt id (newDb oneRecipient) [turnAt 0 (working overBudget)] fun env email sent =>
        (DeferralsUntried id env email sent ↔ ∀ call ∈ callsOf id env email, SparesAllTried call) :=
  deferral_untried_iff (by decide) (.inl rfl)

/-- The first host was connected to, the outcome carries `deferredMs`, and the row outcome takes the
attempt back. -/
theorem not_deferralsUntried :
    ∃ x ∈ savedAttempts id (newDb oneRecipient) [hiddenTurn],
      ¬ DeferralsUntried id x.env x.email x.sent ∧ x.outcome.isDeferred = true ∧
        x.after.attempts = x.before.attempts ∧ x.after.lastError = none ∧
        ∃ call ∈ callsOf id x.env x.email, ∃ v ∈ (attempt call).visits, v.session ≠ [] := by
  decide +kernel

end BunMail.Emails
