import BunMail.Emails.RefileOrder

/-!
# Settled deliveries stay settled

An entry that was sent or has failed is never written again, and no transaction goes to one of its
recipients.  The steps that record an outcome act on pending entries only, each key once; the
passes that re-file entries keep settled ones by the order of keys.
-/

namespace BunMail.Emails

open Recipients Run

section Settled

variable {toLowerCase : Text → Text} {state : DeliveryState} {op : StateOp} {key : Text}
  {group : DeliveryGroup}

/-! ## One step -/

/-- The entry at a key, if there is one, is pending and has its domain. -/
def PendingAt (state : DeliveryState) (key : Text) : Prop :=
  ∀ group, state.get? key = some group → group.status = .retry ∧ group.domain ≠ none

/-- What keeps a step from writing over a settled entry. -/
def Spares (state : DeliveryState) : StateOp → Prop
  | .withDomains | .splitPerRecipient _ => SettledLate state
  | .recordUnsent key .. => PendingAt state key
  | .recordOutcome outcome .. => PendingAt state outcome.key
  | .dropSuppressed .. | .settle _ | .store => True

theorem dropGroup_of_settled (isSuppressed : Text → Bool) (now : Time) (h : group.status ≠ .retry) :
    dropGroup isSuppressed now group = group := if_pos h

theorem flipGroup_of_settled (deferred : List Text) (key : Text) (h : group.status ≠ .retry) :
    flipGroup deferred key group = group := if_pos h

theorem get?_recordUnsent_ne {k : Text} {unsent : Unsent} {mtaSts : Option DeliveryMtaSts}
    {now : Time} (h : k ≠ key) :
    (recordUnsent state key unsent mtaSts now).get? k = state.get? k := by
  unfold recordUnsent
  cases state.get? key with
  | none => rfl
  | some group => exact Table.get?_put_ne h

/-- **Step.** A settled entry keeps every field. -/
theorem get?_applyOp_of_settled (h : Spares state op) (hg : state.get? key = some group)
    (hs : group.status ≠ .retry) : (applyOp toLowerCase state op).get? key = some group := by
  cases op with
  | dropSuppressed isSuppressed now =>
    rw [applyOp, dropSuppressedRecipients, Table.get?_mapValues, hg, Option.map_some,
      dropGroup_of_settled _ _ hs]
  | withDomains =>
    exact get?_pass_of_settledLate (fun _ => refiles_domainPieces) lengthens_domainPieces h hg hs
  | splitPerRecipient paths =>
    exact get?_pass_of_settledLate (fun _ => refiles_recipientPieces)
      (lengthens_recipientPieces paths) h hg hs
  | recordUnsent key' unsent mtaSts now =>
    have hne : key ≠ key' := by
      rintro rfl
      exact hs (h group hg).1
    rw [applyOp, get?_recordUnsent_ne hne, hg]
  | recordOutcome outcome messageId order mtaSts now =>
    have hne : key ≠ outcome.key := by
      rintro rfl
      exact hs (h group hg).1
    rw [applyOp, get?_recordOutcome_ne hne (mem_keys_of_get? hg), hg]
  | settle deferred =>
    rw [applyOp, finalStateOf, Table.get?_mapValues, hg, Option.map_some,
      flipGroup_of_settled _ _ hs]
  | store => rw [applyOp, get?_jsonb, hg]

/-! ## What every step keeps -/

/-- A step keeps each recipient at most as often as it was there, also when a pass assigns a key
twice. -/
theorem exists_perm_applyOp (h : (recipientsOf state).Nodup) :
    ∃ gone, (recipientsOf (applyOp toLowerCase state op) ++ gone).Perm (recipientsOf state) := by
  have hpass : ∀ {pieces : Text × DeliveryGroup → List (Text × DeliveryGroup)},
      (∀ e, Refiles e (pieces e)) → ∃ gone,
        (recipientsOf (Table.ofEntries (state.rows.flatMap pieces)) ++ gone).Perm
          (recipientsOf state) := by
    intro pieces hr
    obtain ⟨gone, hgone⟩ := Table.exists_perm_flatMap_ofEntries
      (fun e : Text × DeliveryGroup => e.2.recipients) (state.rows.flatMap pieces)
    refine ⟨gone, hgone.trans ?_⟩
    unfold recipientsOf
    rw [List.flatMap_assoc]
    exact List.Perm.flatMap_left _ fun e _ => (hr e).perm
  cases op with
  | withDomains => exact hpass fun _ => refiles_domainPieces
  | splitPerRecipient paths => exact hpass fun _ => refiles_recipientPieces
  | dropSuppressed isSuppressed now => exact ⟨_, perm_applyOp h trivial⟩
  | recordUnsent key unsent mtaSts now => exact ⟨_, perm_applyOp h trivial⟩
  | recordOutcome outcome messageId order mtaSts now => exact ⟨_, perm_applyOp h trivial⟩
  | settle deferred => exact ⟨_, perm_applyOp h trivial⟩
  | store => exact ⟨_, perm_applyOp h trivial⟩

variable (toLowerCase) in
/-- No two recipients of the state differ by case only. -/
def Distinct (state : DeliveryState) : Prop := ((recipientsOf state).map toLowerCase).Nodup

theorem distinct_applyOp (h : Distinct toLowerCase state) :
    Distinct toLowerCase (applyOp toLowerCase state op) := by
  have hstep : ∃ gone, (recipientsOf (applyOp toLowerCase state op) ++ gone).Perm _ :=
    exists_perm_applyOp (h.of_map toLowerCase)
  obtain ⟨gone, hgone⟩ := hstep
  have hp := hgone.map toLowerCase
  rw [List.map_append] at hp
  exact (List.nodup_append.mp (hp.nodup_iff.mpr h)).1

theorem hasDomains_withDomains (state : DeliveryState) :
    HasDomains (withDomains toLowerCase state) := by
  intro key group hg
  obtain ⟨⟨key₀, group₀⟩, _, hp⟩ :=
    List.mem_flatMap.mp (Table.mem_ofEntries (Table.get?_eq_some_iff.mp hg))
  unfold domainPieces at hp
  dsimp only at hp
  split_ifs at hp with hkeep
  · cases List.mem_singleton.mp hp
    exact hkeep
  · cases List.mem_singleton.mp hp
    exact .inr (.inl (Option.some_ne_none _))
  · obtain ⟨b, _, hb⟩ := List.mem_map.mp hp
    cases hb
    exact .inr (.inl (Option.some_ne_none _))

theorem hasDomain_dropGroup (isSuppressed : Text → Bool) (now : Time) (h : HasDomain key group) :
    HasDomain key (dropGroup isSuppressed now group) := by
  unfold dropGroup
  dsimp only
  split_ifs with hs hlen hkept
  · exact h
  · exact h
  · exact .inl fun hret => (by cases hret)
  · rcases h with h | h | h | h
    · exact .inl h
    · exact .inr (.inl h)
    · exact .inr (.inr (.inl h))
    · rw [h] at hlen
      exact absurd rfl hlen

theorem hasDomain_recipientPieces {paths : ReturnPaths} {e : Text × DeliveryGroup}
    (hp : (key, group) ∈ recipientPieces toLowerCase paths e) (h : HasDomain e.1 e.2) :
    HasDomain key group := by
  obtain ⟨key₀, group₀⟩ := e
  unfold recipientPieces at hp
  dsimp only at hp
  split_ifs at hp with hkeep
  · cases List.mem_singleton.mp hp
    exact h
  · rw [not_or, not_or, not_not] at hkeep
    obtain ⟨x, _, hx⟩ := List.mem_map.mp hp
    cases hx
    rcases h with h | h | h | h
    · exact absurd hkeep.1 h
    · exact .inr (.inl h)
    · exact absurd h hkeep.2.2
    · dsimp only at h
      rw [h] at hkeep
      exact absurd (Nat.zero_le 1) hkeep.2.1

theorem hasDomains_applyOp (hs : Spares state op) (h : HasDomains state) :
    HasDomains (applyOp toLowerCase state op) := by
  intro key group hg
  cases op with
  | dropSuppressed isSuppressed now =>
    rw [applyOp, dropSuppressedRecipients, Table.get?_mapValues] at hg
    obtain ⟨group₀, h₀, rfl⟩ := Option.map_eq_some_iff.mp hg
    exact hasDomain_dropGroup isSuppressed now (h key group₀ h₀)
  | withDomains => exact hasDomains_withDomains state key group hg
  | splitPerRecipient paths =>
    obtain ⟨e, he, hp⟩ := List.mem_flatMap.mp (Table.mem_ofEntries (Table.get?_eq_some_iff.mp hg))
    exact hasDomain_recipientPieces hp (h e.1 e.2 (Table.get?_eq_some_iff.mpr he))
  | recordUnsent key' unsent mtaSts now =>
    by_cases hk : key = key'
    · subst hk
      rw [applyOp, recordUnsent] at hg
      cases h₀ : state.get? key with
      | none =>
        rw [h₀] at hg
        exact h key group hg
      | some group₀ =>
        rw [h₀] at hg
        dsimp only at hg
        rw [Table.get?_put_self] at hg
        cases hg
        exact .inr (.inl (hs group₀ h₀).2)
    · rw [applyOp, get?_recordUnsent_ne hk] at hg
      exact h key group hg
  | recordOutcome outcome messageId order mtaSts now =>
    rcases get?_recordOutcome hg with h₀ | ⟨_, group₀, h₀, hd, _⟩
    · exact h key group h₀
    · exact .inr (.inl (hd ▸ (hs group₀ h₀).2))
  | settle deferred =>
    rw [applyOp, finalStateOf, Table.get?_mapValues] at hg
    obtain ⟨group₀, h₀, rfl⟩ := Option.map_eq_some_iff.mp hg
    unfold flipGroup
    split_ifs
    · exact h key group₀ h₀
    · exact .inl fun hret => (by cases hret)
    · exact .inl fun hret => (by cases hret)
  | store =>
    rw [applyOp, get?_jsonb] at hg
    exact h key group hg

/-! ## Steps that record outcomes -/

/-- The key a step records an outcome on. -/
def StateOp.target : StateOp → Option Text
  | .recordUnsent key .. => some key
  | .recordOutcome outcome .. => some outcome.key
  | .withDomains | .splitPerRecipient _ | .dropSuppressed .. | .settle _ | .store => none

theorem get?_applyOp_of_ne {target : Text} (ht : op.target = some target) (hk : key ≠ target)
    (hg : state.get? key = some group) : (applyOp toLowerCase state op).get? key = some group := by
  cases op with
  | recordUnsent key' unsent mtaSts now =>
    cases ht
    rw [applyOp, get?_recordUnsent_ne hk, hg]
  | recordOutcome outcome messageId order mtaSts now =>
    cases ht
    rw [applyOp, get?_recordOutcome_ne hk (mem_keys_of_get? hg), hg]
  | _ => cases ht

theorem spares_of_pendingAt {target : Text} (ht : op.target = some target)
    (hp : PendingAt state target) : Spares state op := by
  cases op with
  | recordUnsent key' unsent mtaSts now => cases ht; exact hp
  | recordOutcome outcome messageId order mtaSts now => cases ht; exact hp
  | _ => cases ht

/-- Recording outcomes on other keys leaves an entry alone. -/
theorem get?_run_of_notMem {ops : List StateOp} {keys : List Text}
    (ht : ops.map StateOp.target = keys.map some) (hk : key ∉ keys)
    (hg : state.get? key = some group) :
    (run (applyOp toLowerCase) state ops).get? key = some group := by
  induction ops generalizing keys state with
  | nil => exact hg
  | cons op ops ih =>
    cases keys with
    | nil => cases ht
    | cons k keys =>
      rw [List.map_cons, List.map_cons, List.cons.injEq] at ht
      rw [List.mem_cons, not_or] at hk
      exact ih ht.2 hk.2 (get?_applyOp_of_ne ht.1 hk.1 hg)

/-- Outcomes recorded on distinct pending keys find each of them pending. -/
theorem along_spares_of_targets {ops : List StateOp} {keys : List Text}
    (ht : ops.map StateOp.target = keys.map some) (hn : keys.Nodup)
    (hp : ∀ k ∈ keys, ∃ g, state.get? k = some g ∧ g.status = .retry ∧ g.domain ≠ none) :
    Along (applyOp toLowerCase) Spares state ops := by
  induction ops generalizing keys state with
  | nil => trivial
  | cons op ops ih =>
    cases keys with
    | nil => cases ht
    | cons k keys =>
      rw [List.map_cons, List.map_cons, List.cons.injEq] at ht
      rw [List.nodup_cons] at hn
      refine ⟨spares_of_pendingAt ht.1 fun g hg => ?_, ih ht.2 hn.2 fun k' hk' => ?_⟩
      · obtain ⟨g', hg', hpend⟩ := hp k List.mem_cons_self
        rw [hg] at hg'
        cases hg'
        exact hpend
      · -- the other keys are not touched
        obtain ⟨g, hg, hpend⟩ := hp k' (List.mem_cons_of_mem _ hk')
        have hne : k' ≠ k := by
          rintro rfl
          exact hn.1 hk'
        exact ⟨g, get?_applyOp_of_ne ht.1 hne hg, hpend⟩

/-! ## The keys of an attempt -/

/-- The keys of the pending entries with a domain. -/
def pendingKeys (state : DeliveryState) : List Text := (pendingEntries state).map Prod.snd

theorem mem_pendingKeys :
    key ∈ pendingKeys state ↔
      ∃ g, state.get? key = some g ∧ g.status = .retry ∧ g.domain ≠ none := by
  unfold pendingKeys pendingEntries
  constructor
  · intro h
    obtain ⟨⟨d, k⟩, hm, rfl⟩ := List.mem_map.mp h
    obtain ⟨⟨k', g⟩, hrow, hsome⟩ := List.mem_filterMap.mp hm
    dsimp only at hsome
    split_ifs at hsome with hs
    obtain ⟨d', hd, heq⟩ := Option.map_eq_some_iff.mp hsome
    cases heq
    exact ⟨g, Table.get?_eq_some_iff.mpr hrow, hs, by rw [hd]; exact Option.some_ne_none _⟩
  · rintro ⟨g, hg, hs, hd⟩
    obtain ⟨d, hd⟩ := Option.ne_none_iff_exists'.mp hd
    refine List.mem_map.mpr ⟨(d, key), List.mem_filterMap.mpr ⟨(key, g), ?_, ?_⟩, rfl⟩
    · exact Table.get?_eq_some_iff.mp hg
    · simp [hs, hd]

theorem nodup_pendingKeys (state : DeliveryState) : (pendingKeys state).Nodup := by
  have hsub : (pendingKeys state).Sublist state.keys := by
    unfold pendingKeys pendingEntries Table.keys
    induction state.rows with
    | nil => exact List.Sublist.refl _
    | cons e rows ih =>
      obtain ⟨k, g⟩ := e
      rw [List.filterMap_cons, List.map_cons]
      dsimp only
      by_cases hs : g.status = .retry
      · rw [if_pos hs]
        cases g.domain with
        | none => exact ih.cons _
        | some d => exact ih.cons_cons _
      · rw [if_neg hs]
        exact ih.cons _
  exact hsub.nodup state.unique

/-- Planning goes through the pending keys. -/
theorem perm_pendingByDomain (state : DeliveryState) :
    ((pendingByDomain state).flatMap Prod.snd).Perm (pendingKeys state) := by
  unfold pendingByDomain pendingKeys
  rw [List.flatMap_map]
  have h := (Table.perm_groupBy Prod.fst (pendingEntries state)).map Prod.snd
  rwa [List.map_flatMap] at h

variable {options : SendMailOptions} {env : MailerEnv}

variable (toLowerCase) in
/-- The keys of the domains that are not sent to. -/
def unsentKeys (env : MailerEnv) (pending : List (Text × List Text)) : List Text :=
  pending.flatMap fun (domain, keys) =>
    match domainHosts toLowerCase env domain with
    | .error _ => keys
    | .ok _ => []

/-- The keys of the planned transactions. -/
def plannedKeys (sessions : Sessions) : List Text :=
  sessions.rows.flatMap fun e => e.2.transactions.map MxTransaction.key

theorem keys_allOutcomes (env : MailerEnv) (plans : Plans) :
    (allOutcomes env plans).map RoutedOutcome.key = plannedKeys plans.sessions := by
  unfold allOutcomes plannedKeys
  rw [List.map_flatMap]
  congr 1
  funext ⟨id, plan⟩
  unfold sendToMxHosts
  dsimp only
  cases env.signed with
  | uncomposable error => rw [List.map_map]; rfl
  | unsigned => exact deliverWithFailover_keys _ _ _
  | signed => exact deliverWithFailover_keys _ _ _
  | signingFailed domain => exact deliverWithFailover_keys _ _ _

/-- A plan's new transactions add their keys. -/
theorem count_plannedKeys_put {sessions : Sessions} {id : Text} {plan : MxSessionPlan}
    {added : List MxTransaction} (k : Text)
    (h : plan.transactions =
      ((sessions.get? id).map MxSessionPlan.transactions).getD [] ++ added) :
    (plannedKeys (sessions.put id plan)).count k =
      (plannedKeys sessions).count k + (added.map MxTransaction.key).count k := by
  unfold plannedKeys
  cases hs : sessions.get? id with
  | none =>
    rw [hs] at h
    rw [Table.put_rows_of_notMem (Table.get?_eq_none_iff.mp hs), List.flatMap_append,
      List.flatMap_singleton, List.count_append, h]
    rfl
  | some plan₀ =>
    rw [hs] at h
    have hput : (plannedKeys (sessions.put id plan) ++
        plan₀.transactions.map MxTransaction.key).Perm _ :=
      Table.perm_flatMap_upsert_some
        (show sessions.find? (id, plan).1 = some (id, plan₀) from Table.find?_eq_of_get? hs)
    have hc := hput.count_eq k
    rw [List.count_append, List.count_append, h, List.map_append, List.count_append] at hc
    unfold plannedKeys at hc
    simp only [Option.map_some, Option.getD_some] at hc
    omega

theorem sublist_keys_transactionsOf (paths : Option ReturnPaths) (from_ domain : Text)
    (keys : List Text) :
    ((transactionsOf toLowerCase state paths from_ domain keys).map MxTransaction.key).Sublist
      keys := by
  unfold transactionsOf
  induction keys with
  | nil => exact List.Sublist.refl _
  | cons k keys ih =>
    rw [List.filterMap_cons]
    cases state.get? k with
    | none => exact ih.cons _
    | some g => exact ih.cons_cons _

/-- Every pending key is planned or not sent to, at most once. -/
theorem count_keys_le (pending : List (Text × List Text)) (k : Text) :
    (unsentKeys toLowerCase env pending).count k +
      (plannedKeys (pending.foldl (planDomain toLowerCase options env)
        ⟨state, Table.empty, Table.empty⟩).sessions).count k ≤ (pending.flatMap Prod.snd).count k := by
  induction pending using List.reverseRecOn with
  | nil => exact le_refl 0
  | append_singleton pending p ih =>
    obtain ⟨domain, keys⟩ := p
    rw [List.foldl_append, List.foldl_cons, List.foldl_nil, List.flatMap_append,
      List.flatMap_singleton, List.count_append]
    generalize pending.foldl (planDomain toLowerCase options env) ⟨state, Table.empty, Table.empty⟩ =
      plans at ih ⊢
    have hunsent : unsentKeys toLowerCase env (pending ++ [(domain, keys)]) =
        unsentKeys toLowerCase env pending ++ unsentKeys toLowerCase env [(domain, keys)] :=
      List.flatMap_append
    rw [hunsent, List.count_append]
    unfold planDomain
    dsimp only
    cases hd : domainHosts toLowerCase env domain with
    | error unsent =>
      have hall : unsentKeys toLowerCase env [(domain, keys)] = keys := by
        simp [unsentKeys, hd]
      rw [hall]
      dsimp only
      omega
    | ok hosts =>
      dsimp only
      rw [count_plannedKeys_put k (by cases plans.sessions.get? _ <;> rfl)]
      have hnone : unsentKeys toLowerCase env [(domain, keys)] = [] := by
        simp [unsentKeys, hd]
      have hsub : ((transactionsOf toLowerCase plans.state (returnPathsOf toLowerCase options env)
          options.from_ domain keys).map MxTransaction.key).count k ≤ keys.count k :=
        (sublist_keys_transactionsOf _ _ _ _).count_le k
      rw [hnone, List.count_nil]
      omega

theorem targets_unsentOps (pending : List (Text × List Text)) :
    (unsentOps toLowerCase env pending).map StateOp.target =
      (unsentKeys toLowerCase env pending).map some := by
  unfold unsentOps unsentKeys
  rw [List.map_flatMap, List.map_flatMap]
  congr 1
  funext ⟨domain, keys⟩
  dsimp only
  cases domainHosts toLowerCase env domain with
  | error unsent => rw [List.map_map]; rfl
  | ok hosts => rfl

/-- The keys the mailer records outcomes on. -/
theorem targets_recordOps :
    (recordOps toLowerCase options env state).map StateOp.target =
      (unsentKeys toLowerCase env (pendingByDomain state) ++
        ((allOutcomes env (planSessions toLowerCase options env state)).filter
          (·.deferredMs.isNone)).map RoutedOutcome.key).map some := by
  unfold recordOps
  rw [List.map_append, List.map_append, targets_unsentOps]
  congr 1
  · generalize allOutcomes env _ = outcomes
    induction outcomes with
    | nil => rfl
    | cons o outcomes ih =>
      rw [List.filterMap_cons, List.filter_cons]
      cases ho : o.deferredMs with
      | none => simp [outcomeOp, ho, StateOp.target, ih]
      | some ms => simpa [outcomeOp, ho] using ih

variable (toLowerCase options env state) in
theorem count_targets_le (k : Text) :
    (unsentKeys toLowerCase env (pendingByDomain state) ++
      plannedKeys (planSessions toLowerCase options env state).sessions).count k ≤
        (pendingKeys state).count k := by
  rw [List.count_append, ← (perm_pendingByDomain state).count_eq k]
  exact count_keys_le _ k

/-- The mailer finds every entry it records an outcome on pending. -/
theorem along_spares_recordOps :
    Along (applyOp toLowerCase) Spares state (recordOps toLowerCase options env state) := by
  have hle : ∀ k, (unsentKeys toLowerCase env (pendingByDomain state) ++
      ((allOutcomes env (planSessions toLowerCase options env state)).filter
        (·.deferredMs.isNone)).map RoutedOutcome.key).count k ≤ (pendingKeys state).count k := by
    intro k
    have hall := count_targets_le toLowerCase state options env k
    have hsub : (((allOutcomes env (planSessions toLowerCase options env state)).filter
        (·.deferredMs.isNone)).map RoutedOutcome.key).count k ≤ _ :=
      (List.filter_sublist.map RoutedOutcome.key).count_le k
    rw [keys_allOutcomes] at hsub
    rw [List.count_append] at hall ⊢
    exact le_trans (Nat.add_le_add_left hsub _) hall
  refine along_spares_of_targets targets_recordOps ?_ fun k hk => ?_
  · refine List.nodup_iff_count_le_one.mpr fun k => (hle k).trans ?_
    exact List.nodup_iff_count_le_one.mp (nodup_pendingKeys state) k
  · refine mem_pendingKeys.mp (List.count_pos_iff.mp ?_)
    exact (List.count_pos_iff.mpr hk).trans_le (hle k)

/-! ## One attempt -/

variable {e : Envelope} {l : Ledger} {a : Attempt}

variable (toLowerCase) in
/-- What a ledger keeps between attempts. -/
structure Ready (l : Ledger) : Prop where
  distinct : Distinct toLowerCase l.state
  fresh : l.stored = false → HasDomains l.state ∧
    ∀ key group, l.state.get? key = some group → group.status = .retry
  byLength : l.stored = true → ByLength l.state
  keys : l.stored = true → LegacyKeys l.state ∨ HasDomains l.state

theorem hasDomains_run {ops : List StateOp} (h : HasDomains state)
    (hs : Along (applyOp toLowerCase) Spares state ops) :
    HasDomains (run (applyOp toLowerCase) state ops) :=
  invariant HasDomains (fun _ _ h hs => hasDomains_applyOp hs h) h hs

theorem settledLate_of_pending
    (h : ∀ key group, state.get? key = some group → group.status = .retry) : SettledLate state :=
  List.pairwise_of_forall_mem_list fun a ha _ _ hs =>
    absurd (h a.1 a.2 (Table.get?_eq_some_iff.mpr ha)) hs

/-- The steps before sending spare settled entries, and every pending entry has its domain then. -/
theorem along_spares_startOps (h : Ready toLowerCase l) :
    Along (applyOp toLowerCase) Spares l.state (startOps toLowerCase e l.stored a) ∧
      HasDomains (run (applyOp toLowerCase) l.state (startOps toLowerCase e l.stored a)) := by
  -- the optional split, on a state whose settled entries come late
  have hsplit : ∀ {state : DeliveryState}, SettledLate state → HasDomains state →
      Along (applyOp toLowerCase) Spares state (splitOps toLowerCase e a) ∧
        HasDomains (run (applyOp toLowerCase) state (splitOps toLowerCase e a)) := by
    intro state hl hd
    unfold splitOps
    cases returnPathsOf toLowerCase (a.options e none) a.env with
    | none => exact ⟨trivial, hd⟩
    | some paths => exact ⟨⟨hl, trivial⟩, hasDomains_run hd ⟨hl, trivial⟩⟩
  unfold startOps
  cases hs : l.stored with
  | false =>
    obtain ⟨hd, hpend⟩ := h.fresh hs
    exact hsplit (settledLate_of_pending hpend) hd
  | true =>
    rw [if_pos rfl, along_append, run_append]
    have hkeys : (applyOp toLowerCase l.state (.dropSuppressed a.isSuppressed a.droppedAt)).keys =
        l.state.keys := Table.keys_mapValues
    have hlate : SettledLate
        (applyOp toLowerCase l.state (.dropSuppressed a.isSuppressed a.droppedAt)) := by
      have hlen := h.byLength hs
      unfold ByLength at hlen
      rw [← hkeys] at hlen
      exact settledLate_of_byLength hlen
    have hclean : CleanPass (domainPieces toLowerCase)
        (applyOp toLowerCase l.state (.dropSuppressed a.isSuppressed a.droppedAt)) := by
      rcases h.keys hs with hk | hd
      · apply cleanPass_of_legacyKeys
        intro key hkey
        exact hk key (hkeys ▸ hkey)
      · exact cleanPass_of_hasDomains (hasDomains_applyOp trivial hd)
    obtain ⟨hal, hdom⟩ := hsplit
      (settledLate_pass (fun _ => refiles_domainPieces) lengthens_domainPieces hclean hlate)
      (hasDomains_withDomains _)
    exact ⟨⟨⟨trivial, hlate, trivial⟩, hal⟩, hdom⟩

/-- Every step of an attempt spares settled entries. -/
theorem along_spares_attemptOps (h : Ready toLowerCase l) :
    Along (applyOp toLowerCase) Spares l.state (attemptOps toLowerCase e l a) := by
  unfold attemptOps
  dsimp only
  rw [along_append, along_append, along_append]
  refine ⟨⟨⟨(along_spares_startOps h).1, along_spares_recordOps⟩, ?_⟩, trivial, trivial⟩
  split_ifs
  · exact ⟨trivial, trivial⟩
  · trivial

theorem distinct_run (h : Distinct toLowerCase state) (ops : List StateOp) :
    Distinct toLowerCase (run (applyOp toLowerCase) state ops) :=
  foldl_invariant (Distinct toLowerCase) (fun _ _ => distinct_applyOp) h ops

/-- **Step.** An attempt leaves the ledger ready for the next one. -/
theorem ready_attemptStep (h : Ready toLowerCase l) :
    Ready toLowerCase (attemptStep toLowerCase e l a) where
  distinct := distinct_run h.distinct _
  fresh hf := by cases hf
  byLength _ := by
    unfold attemptStep attemptOps
    dsimp only
    rw [run_concat]
    exact byLength_jsonb
  keys _ := by
    right
    -- everything after the steps before sending keeps the domains
    have hal := along_spares_attemptOps (e := e) (a := a) h
    unfold attemptStep
    unfold attemptOps at hal ⊢
    dsimp only at hal ⊢
    rw [List.append_assoc, List.append_assoc] at hal ⊢
    rw [along_append] at hal
    rw [run_append]
    exact hasDomains_run (along_spares_startOps h).2 hal.2

/-- Every step of every attempt spares settled entries. -/
theorem along_spares_historyOps {attempts : List Attempt} (h : Ready toLowerCase l) :
    Along (applyOp toLowerCase) Spares l.state (historyOps toLowerCase e l attempts) := by
  induction attempts generalizing l with
  | nil => trivial
  | cons a attempts ih =>
    unfold historyOps
    rw [along_append]
    exact ⟨along_spares_attemptOps h, ih (ready_attemptStep h)⟩

/-! ## What is planned -/

/-- An entry still holds the recipients it had. -/
def SameRecipients (state₀ state : DeliveryState) : Prop :=
  ∀ key group, state.get? key = some group →
    ∃ group₀, state₀.get? key = some group₀ ∧ group₀.recipients = group.recipients

theorem sameRecipients_recordUnsent {state₀ : DeliveryState} {unsent : Unsent}
    {mtaSts : Option DeliveryMtaSts} {now : Time} (h : SameRecipients state₀ state) :
    SameRecipients state₀ (recordUnsent state key unsent mtaSts now) := by
  intro k g hg
  unfold recordUnsent at hg
  cases hk : state.get? key with
  | none =>
    rw [hk] at hg
    exact h k g hg
  | some group =>
    rw [hk] at hg
    dsimp only at hg
    rw [Table.get?_put] at hg
    split_ifs at hg with heq
    · obtain ⟨group₀, h₀, hr⟩ := h key group hk
      cases hg
      exact ⟨group₀, heq ▸ h₀, hr⟩
    · exact h k g hg

/-- The transactions planned so far hold the recipients of their entries. -/
structure PlansFrom (state₀ : DeliveryState) (plans : Plans) : Prop where
  state : SameRecipients state₀ plans.state
  transactions : ∀ id plan, plans.sessions.get? id = some plan → ∀ t ∈ plan.transactions,
    ∃ group₀, state₀.get? t.key = some group₀ ∧ group₀.recipients = t.recipients

/-- **Step.** One more pending domain. -/
theorem plansFrom_planDomain {state₀ : DeliveryState} {plans : Plans} (h : PlansFrom state₀ plans)
    (p : Text × List Text) : PlansFrom state₀ (planDomain toLowerCase options env plans p) := by
  obtain ⟨domain, keys⟩ := p
  unfold planDomain
  dsimp only
  cases domainHosts toLowerCase env domain with
  | error unsent =>
    refine ⟨?_, h.transactions⟩
    exact foldl_invariant (SameRecipients state₀) (fun _ _ => sameRecipients_recordUnsent) h.state keys
  | ok hosts =>
    refine ⟨h.state, fun id plan hplan t ht => ?_⟩
    dsimp only at hplan
    rw [Table.get?_put] at hplan
    split_ifs at hplan with hid
    · cases hplan
      rcases List.mem_append.mp ht with ht | ht
      · cases hs : plans.sessions.get? (sessionId (enforces (env.policy domain)) hosts) with
        | none =>
          rw [hs] at ht
          cases ht
        | some plan₀ =>
          rw [hs] at ht
          exact h.transactions _ plan₀ hs t ht
      · obtain ⟨key, _, hk⟩ := List.mem_filterMap.mp ht
        obtain ⟨group, hg, rfl⟩ := Option.map_eq_some_iff.mp hk
        exact h.state key group hg
    · exact h.transactions id plan hplan t ht

theorem plansFrom_planSessions (state : DeliveryState) :
    PlansFrom state (planSessions toLowerCase options env state) := by
  refine foldl_invariant (PlansFrom state) (fun _ p h => plansFrom_planDomain h p) ?_ _
  exact ⟨fun key group hg => ⟨group, hg, rfl⟩, fun id plan hplan => (by cases hplan)⟩

/-- A planned transaction is that of an entry that is pending after planning. -/
theorem pending_of_planned {id : Text} {plan : MxSessionPlan} {t : MxTransaction}
    (hplan : (planSessions toLowerCase options env state).sessions.get? id = some plan)
    (ht : t ∈ plan.transactions) :
    ∃ group, (planSessions toLowerCase options env state).state.get? t.key = some group ∧
      group.status = .retry ∧ group.recipients = t.recipients := by
  have hcount := count_targets_le toLowerCase state options env t.key
  have hone := List.nodup_iff_count_le_one.mp (nodup_pendingKeys state) t.key
  have hmem : 0 < (plannedKeys (planSessions toLowerCase options env state).sessions).count t.key := by
    rw [List.count_pos_iff]
    exact List.mem_flatMap.mpr ⟨(id, plan), Table.get?_eq_some_iff.mp hplan, List.mem_map_of_mem ht⟩
  rw [List.count_append] at hcount
  have hpos : 0 < (pendingKeys state).count t.key := by omega
  obtain ⟨group, hg, hs, _⟩ := mem_pendingKeys.mp (List.count_pos_iff.mp hpos)
  obtain ⟨group₀, h₀, hr⟩ := (plansFrom_planSessions state).transactions id plan hplan t ht
  rw [hg] at h₀
  cases h₀
  have hnot : t.key ∉ unsentKeys toLowerCase env (pendingByDomain state) := by
    rw [← List.count_eq_zero]
    omega
  refine ⟨group, ?_, hs, hr⟩
  rw [state_planSessions]
  exact get?_run_of_notMem (targets_unsentOps _) hnot hg

variable (toLowerCase) in
/-- Whoever a planned transaction goes to is in no settled entry. -/
def PlansPendingOnly (plans : Plans) : Prop :=
  ∀ id plan, plans.sessions.get? id = some plan → ∀ t ∈ plan.transactions, ∀ r ∈ t.recipients,
    ∀ key group, plans.state.get? key = some group → ∀ r' ∈ group.recipients,
      toLowerCase r = toLowerCase r' → group.status = .retry

theorem plansPendingOnly (h : Distinct toLowerCase state) :
    PlansPendingOnly toLowerCase (planSessions toLowerCase options env state) := by
  intro id plan hplan t ht r hr key group hg r' hr' heq
  obtain ⟨group₀, h₀, hs, hrec⟩ := pending_of_planned hplan ht
  have hdist : Distinct toLowerCase (planSessions toLowerCase options env state).state := by
    rw [state_planSessions]
    exact distinct_run h _
  rw [← hrec] at hr
  have hsame : r = r' := List.inj_on_of_nodup_map hdist
    (mem_recipientsOf.mpr ⟨t.key, group₀, h₀, hr⟩) (mem_recipientsOf.mpr ⟨key, group, hg, hr'⟩) heq
  subst hsame
  rw [← (entry_unique (hdist.of_map toLowerCase) h₀ hg hr hr').2]
  exact hs

/-! ## Whole histories -/

/-- The ledger after a list of attempts. -/
def ledgerAfter (toLowerCase : Text → Text) (e : Envelope) (l₀ : Ledger) (attempts : List Attempt) :
    Ledger := run (attemptStep toLowerCase e) l₀ attempts

variable (toLowerCase) in
/-- Where the attempts start: with a new row, or with a state stored before the domain column, as
`jsonb` gives it back. -/
def Origin (e : Envelope) (l₀ : Ledger) : Prop :=
  l₀ = ⟨buildInitialState toLowerCase e.to_ e.cc e.bcc, false⟩ ∨
    l₀.stored = true ∧ Distinct toLowerCase l₀.state ∧ jsonb l₀.state = l₀.state ∧
      LegacyKeys l₀.state

/-- Every entry of a first attempt is pending, under its domain. -/
theorem get?_buildInitialState {to_ : Text} {cc bcc : Option Text}
    (hg : (buildInitialState toLowerCase to_ cc bcc).get? key = some group) :
    group.status = .retry ∧ group.domain ≠ none := by
  rw [Table.get?_eq_some_iff, rows_buildInitialState, List.mem_map] at hg
  obtain ⟨b, _, heq⟩ := hg
  rw [← (Prod.mk.inj heq).2]
  exact ⟨rfl, Option.some_ne_none _⟩

theorem ready_of_origin (h : Origin toLowerCase e l) : Ready toLowerCase l := by
  rcases h with rfl | ⟨hs, hdist, hjson, hkeys⟩
  · refine ⟨?_, fun _ => ⟨?_, ?_⟩, fun hf => (by cases hf), fun hf => (by cases hf)⟩
    · exact ((perm_recipientsOf_buildInitialState).map toLowerCase).nodup_iff.mpr distinct_acceptedOf
    · exact fun key group hg => .inr (.inl (get?_buildInitialState hg).2)
    · exact fun key group hg => (get?_buildInitialState hg).1
  · refine ⟨hdist, fun hf => ?_, fun _ => hjson ▸ byLength_jsonb, fun _ => .inl hkeys⟩
    rw [hs] at hf
    cases hf

variable (toLowerCase) in
/-- Settled entries keep every field from the step that settles them on, and no attempt plans a
transaction to one of their recipients. -/
def SettledStays (e : Envelope) (l₀ : Ledger) (attempts : List Attempt) : Prop :=
  (∀ ops more, ops ++ more <+: historyOps toLowerCase e l₀ attempts → ∀ key group,
    (run (applyOp toLowerCase) l₀.state ops).get? key = some group → group.status ≠ .retry →
      (run (applyOp toLowerCase) l₀.state (ops ++ more)).get? key = some group) ∧
  ∀ before a, before ++ [a] <+: attempts →
    let l := ledgerAfter toLowerCase e l₀ before
    PlansPendingOnly toLowerCase (planSessions toLowerCase (a.options e none) a.env
      (run (applyOp toLowerCase) l.state (startOps toLowerCase e l.stored a)))

/-- **Settled deliveries stay settled.** -/
theorem settledStays {l₀ : Ledger} {attempts : List Attempt} (h : Origin toLowerCase e l₀) :
    SettledStays toLowerCase e l₀ attempts := by
  have hready := ready_of_origin h
  constructor
  · rintro ops more ⟨rest, hrest⟩ key group hg hs
    have hal : Along (applyOp toLowerCase) Spares l₀.state (historyOps toLowerCase e l₀ attempts) :=
      along_spares_historyOps hready
    rw [← hrest, along_append, along_append] at hal
    rw [run_append]
    exact invariant (fun s : DeliveryState => s.get? key = some group)
      (fun _ _ hg hsp => get?_applyOp_of_settled hsp hg hs) hg hal.1.2
  · rintro before a _
    refine plansPendingOnly (distinct_run ?_ _)
    have hafter : Ready toLowerCase (ledgerAfter toLowerCase e l₀ before) :=
      foldl_invariant (Ready toLowerCase) (fun _ _ => ready_attemptStep) hready before
    exact hafter.distinct

end Settled

/-- Two signed attempts to the recipients whose entries collide. -/
theorem settledStays_hashDomain :
    SettledStays id (threeRecipients "a.b#1") (newLedger (threeRecipients "a.b#1"))
      [signedAttempt fun _ => false, signedAttempt (· = "z@a.b#1".toList)] :=
  settledStays (.inl rfl)

end BunMail.Emails
