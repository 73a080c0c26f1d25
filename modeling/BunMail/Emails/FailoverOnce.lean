import BunMail.Emails.FailoverLog

/-!
# Failover delivers each transaction at most once

A transaction that a session accepted, or that a server answered with a reply that decides, is in no
later session.  Under a rate budget every session holds transactions that were charged a token of its
bucket, and no bucket charges a transaction twice.  At most five hosts are turned to, and at most two
addresses of each.
-/

namespace BunMail.Emails.FailoverLog

open Run SmtpError

section Once

variable {call : Call} {st : Progress}

/-! ## The invariant of the loop -/

/-- A visit after another: what was settled is in no later session, and no bucket charges a
transaction again. -/
structure Follows (u v : Visit) : Prop where
  settled : ∀ t ∈ v.session, t.key ∉ u.settled
  charged : u.bucket = v.bucket → ∀ t ∈ u.charged, ∀ t' ∈ v.charged, t.key ≠ t'.key

/-- The session of a visit under a budget holds transactions charged to its bucket by then. -/
def ChargedBy (before : List Visit) (v : Visit) : Prop :=
  v.rated = true → ∀ t ∈ v.session, ∃ u ∈ before ++ [v], u.bucket = v.bucket ∧ t ∈ u.charged

/-- What each stop keeps. -/
structure Inv (call : Call) (st : Progress) : Prop where
  pending : st.pending.Sublist call.transactions
  /-- What is pending is not done. -/
  undone : ∀ t ∈ st.pending, t.key ∉ st.done.keys
  settled : ∀ v ∈ st.visits, ∀ k ∈ v.settled, k ∈ st.done.keys
  follows : st.visits.Pairwise Follows
  /-- The charges are those of the visits. -/
  charges : ∀ v ∈ st.visits, ∀ t ∈ v.charged, (t.key, v.bucket) ∈ st.charged
  charged : ∀ t ∈ st.pending, ∀ bucket, (t.key, bucket) ∈ st.charged →
    ∃ u ∈ st.visits, u.bucket = bucket ∧ t ∈ u.charged
  by_ : ∀ before v, before ++ [v] <+: st.visits → ChargedBy before v
  sublist : ∀ v ∈ st.visits, v.session.Sublist call.transactions ∧
    v.charged.Sublist call.transactions

theorem inv_start (call : Call) : Inv call (start call) where
  pending := List.Sublist.refl _
  undone _ _ := List.not_mem_nil
  settled _ h := (by cases h)
  follows := List.Pairwise.nil
  charges _ h := (by cases h)
  charged _ _ _ h := (by cases h)
  by_ before v h := by
    rw [show (start call).visits = [] from rfl, List.prefix_nil] at h
    cases before <;> cases h
  sublist _ h := (by cases h)

theorem inv_skipped {st' : Progress} (h : Inv call st) (hs : Skipped st st') : Inv call st' := by
  obtain ⟨hvisits, hcharged, hpending, hdone, _⟩ := hs
  constructor
  · rw [hpending]; exact h.pending
  · rw [hpending, hdone]; exact h.undone
  · rw [hvisits, hdone]; exact h.settled
  · rw [hvisits]; exact h.follows
  · rw [hvisits, hcharged]; exact h.charges
  · rw [hvisits, hpending, hcharged]; exact h.charged
  · rw [hvisits]; exact h.by_
  · rw [hvisits]; exact h.sublist

section Visited

variable {v : Visit} {st' : Progress}

/-- Whoever gets a token or is left without one was pending and not charged to the bucket. -/
theorem Visited.mem_uncharged (hv : Visited call st v st') {t : MxTransaction}
    (ht : t ∈ v.charged ++ v.denied) : t ∈ st.pending ∧ (t.key, v.bucket) ∉ st.charged := by
  cases hr : v.rated with
  | true =>
    rw [hv.asked hr] at ht
    obtain ⟨hp, hc⟩ := List.mem_filter.mp ht
    exact ⟨hp, by simpa using hc⟩
  | false =>
    obtain ⟨hc, hd⟩ := hv.unasked hr
    rw [hc, hd] at ht
    cases ht

theorem Visited.mem_session (hv : Visited call st v st') {t : MxTransaction} :
    t ∈ v.session ↔ t ∈ st.pending ∧ t.key ∉ v.denied.map MxTransaction.key := by
  rw [hv.session, List.mem_filter, decide_eq_true_eq]

theorem Visited.mem_pending (hv : Visited call st v st') {t : MxTransaction} :
    t ∈ st'.pending ↔ t ∈ st.pending ∧ t.key ∉ st'.done.keys := by
  rw [hv.pending, List.mem_filter, decide_eq_true_eq]

/-- A transaction of the session is charged to the bucket, by this visit or an earlier one. -/
theorem Visited.chargedBy (hv : Visited call st v st') (h : Inv call st) :
    ChargedBy st.visits v := by
  intro hr t ht
  obtain ⟨hp, hn⟩ := hv.mem_session.mp ht
  by_cases hc : (t.key, v.bucket) ∈ st.charged
  · obtain ⟨u, hu, hb, htu⟩ := h.charged t hp v.bucket hc
    exact ⟨u, List.mem_append_left _ hu, hb, htu⟩
  · refine ⟨v, List.mem_append_right _ (List.mem_singleton_self _), rfl, ?_⟩
    have hun : t ∈ uncharged st.pending v.bucket st.charged :=
      List.mem_filter.mpr ⟨hp, by simpa using hc⟩
    rw [← hv.asked hr] at hun
    exact (List.mem_append.mp hun).resolve_right fun hd => hn (List.mem_map_of_mem hd)

theorem inv_visited (h : Inv call st) (hv : Visited call st v st') : Inv call st' := by
  have hcharged : v.charged.Sublist call.transactions := by
    cases hr : v.rated with
    | true =>
      have hsub : (v.charged ++ v.denied).Sublist st.pending := by
        rw [hv.asked hr]
        exact List.filter_sublist
      exact ((List.sublist_append_left _ _).trans hsub).trans h.pending
    | false =>
      rw [(hv.unasked hr).1]
      exact List.nil_sublist _
  have hsession : v.session.Sublist call.transactions := by
    rw [hv.session]
    exact List.filter_sublist.trans h.pending
  constructor
  · rw [hv.pending]
    exact List.filter_sublist.trans h.pending
  · exact fun t ht => (hv.mem_pending.mp ht).2
  · intro u hu k hk
    rw [hv.done]
    rw [hv.visits, List.mem_append, List.mem_singleton] at hu
    rcases hu with hu | rfl
    · exact .inl (h.settled u hu k hk)
    · exact .inr (.inr hk)
  · rw [hv.visits, List.pairwise_append]
    refine ⟨h.follows, List.pairwise_singleton _ _, fun u hu w hw => ?_⟩
    rw [List.mem_singleton.mp hw]
    constructor
    · intro t ht hk
      exact h.undone t (hv.mem_session.mp ht).1 (h.settled u hu _ hk)
    · intro hb t ht t' ht' heq
      refine (hv.mem_uncharged (List.mem_append_left _ ht')).2 ?_
      rw [← heq, ← hb]
      exact h.charges u hu t ht
  · intro u hu t ht
    rw [hv.charged, List.mem_append]
    rw [hv.visits, List.mem_append, List.mem_singleton] at hu
    rcases hu with hu | rfl
    · exact .inl (h.charges u hu t ht)
    · exact .inr (List.mem_map.mpr ⟨t, ht, rfl⟩)
  · intro t ht bucket hc
    obtain ⟨hp, hn⟩ := hv.mem_pending.mp ht
    rw [hv.visits]
    rw [hv.charged, List.mem_append] at hc
    rcases hc with hc | hc
    · obtain ⟨u, hu, hb, htu⟩ := h.charged t hp bucket hc
      exact ⟨u, List.mem_append_left _ hu, hb, htu⟩
    · -- a transaction of the same key that was left without a token would make this one done
      obtain ⟨t', ht', heq⟩ := List.mem_map.mp hc
      obtain ⟨hkey, rfl⟩ := Prod.mk.inj heq
      have hnot : t.key ∉ v.denied.map MxTransaction.key := fun hd => hn ((hv.done _).mpr (.inr (.inl hd)))
      have hr : v.rated = true := by
        cases hr : v.rated with
        | true => rfl
        | false =>
          rw [(hv.unasked hr).1] at ht'
          cases ht'
      have huncharged := (hv.mem_uncharged (List.mem_append_left _ ht')).2
      have hun : t ∈ v.charged ++ v.denied := by
        rw [hv.asked hr]
        exact List.mem_filter.mpr ⟨hp, by simpa [← hkey] using huncharged⟩
      refine ⟨v, List.mem_append_right _ (List.mem_singleton_self _), rfl, ?_⟩
      exact (List.mem_append.mp hun).resolve_right fun hd => hnot (List.mem_map_of_mem hd)
  · intro before w hw
    rw [hv.visits, List.prefix_concat_iff] at hw
    rcases hw with hw | hw
    · obtain ⟨rfl, heq⟩ := List.append_inj' hw rfl
      rw [List.singleton_inj.mp heq]
      exact hv.chargedBy h
    · exact h.by_ before w hw
  · intro u hu
    rw [hv.visits, List.mem_append, List.mem_singleton] at hu
    rcases hu with hu | rfl
    · exact h.sublist u hu
    · exact ⟨hsession, hcharged⟩

end Visited

/-- **Step.** -/
theorem inv_step (h : Inv call st) (stop : Stop) : Inv call (step call st stop) := by
  rcases step_cases call st stop with heq | hs | ⟨_, _, _, _, _, _, hv⟩
  · rw [heq]
    exact h
  · exact inv_skipped h hs
  · exact inv_visited h hv

/-- **Run.** -/
theorem inv_attempt (call : Call) : Inv call (attempt call) := by
  rw [attempt_eq_run]
  exact foldl_invariant (Inv call) (fun _ stop h => inv_step h stop) (inv_start call) _

/-! ## Where the visits are -/

/-- The place of a visit: the host's place in the list, its name and the address. -/
def Visit.place (v : Visit) : ℕ × Text × Text := (v.host, v.mxHost, v.address)

/-- The place of a stop at an address. -/
def Stop.place? : Stop → Option (ℕ × Text × Text)
  | .skip _ => none
  | .address i mxHost _ a => some (i, mxHost, a)

/-- Visits are made at the stops, in order, each stop once. -/
theorem sublist_places (st : Progress) (l : List Stop) :
    ((run (step call) st l).visits.map Visit.place).Sublist
      (st.visits.map Visit.place ++ l.filterMap Stop.place?) := by
  induction l using List.reverseRecOn with
  | nil => simp
  | append_singleton l stop ih =>
    rw [run_concat, List.filterMap_append, ← List.append_assoc]
    rcases step_cases call (run (step call) st l) stop with heq | hs | ⟨i, h, j, a, _, rfl, hv⟩
    · rw [heq]
      exact ih.trans (List.sublist_append_left _ _)
    · rw [hs.visits]
      exact ih.trans (List.sublist_append_left _ _)
    · rw [hv.visits, List.map_append]
      exact ih.append (List.Sublist.refl _)

/-- The stops at a host are at addresses it resolved to. -/
theorem place_stopsAt {host : Text × ℕ} {p : ℕ × Text × Text}
    (hp : p ∈ (stopsAt call host).filterMap Stop.place?) :
    p.1 = host.2 ∧ p.2.1 = host.1 ∧ ∃ addresses,
      call.resolveMxAddresses host.2 = .ok addresses ∧ p.2.2 ∈ addresses := by
  unfold stopsAt at hp
  cases hr : call.resolveMxAddresses host.2 with
  | error e =>
    rw [hr] at hp
    cases hp
  | ok addresses =>
    rw [hr, List.filterMap_map] at hp
    obtain ⟨⟨a, j⟩, ha, heq⟩ := List.mem_filterMap.mp hp
    rw [← Option.some.inj heq]
    refine ⟨rfl, rfl, addresses, rfl, ?_⟩
    exact List.mem_of_mem_take (List.fst_mem_of_mem_zipIdx ha)

theorem length_stopsAt (call : Call) (host : Text × ℕ) :
    ((stopsAt call host).filterMap Stop.place?).length ≤ MAX_ADDRESSES_PER_HOST := by
  refine (List.length_filterMap_le _ _).trans ?_
  unfold stopsAt
  cases call.resolveMxAddresses host.2 with
  | error e => exact Nat.le_succ 1
  | ok addresses =>
    rw [List.length_map, List.length_zipIdx]
    exact List.length_take_le _ _

/-- At most two addresses for each time a host is in the list. -/
theorem countP_stops (hosts : List (Text × ℕ)) (mxHost : Text) :
    ((hosts.flatMap (stopsAt call)).filterMap Stop.place?).countP (·.2.1 = mxHost) ≤
      MAX_ADDRESSES_PER_HOST * (hosts.map Prod.fst).count mxHost := by
  induction hosts with
  | nil => exact Nat.zero_le _
  | cons host hosts ih =>
    rw [List.flatMap_cons, List.filterMap_append, List.countP_append, List.map_cons]
    by_cases h : host.1 = mxHost
    · have hle := (List.countP_le_length (p := fun p => decide (p.2.1 = mxHost))
        (l := (stopsAt call host).filterMap Stop.place?)).trans (length_stopsAt call host)
      rw [h, List.count_cons_self, Nat.mul_succ]
      omega
    · have hzero : ((stopsAt call host).filterMap Stop.place?).countP (·.2.1 = mxHost) = 0 := by
        rw [List.countP_eq_zero]
        intro p hp
        rw [decide_eq_true_eq, (place_stopsAt hp).2.1]
        exact h
      rw [hzero, List.count_cons_of_ne h, Nat.zero_add]
      exact ih

/-- Every visit is at a stop of the call. -/
theorem place_mem_stops {v : Visit} (hv : v ∈ (attempt call).visits) :
    v.place ∈ (stops call).filterMap Stop.place? := by
  rw [attempt_eq_run] at hv
  exact (sublist_places (start call) (stops call)).subset (List.mem_map_of_mem hv)

/-- What is known of where a visit was. -/
theorem place_of_visit {v : Visit} (hv : v ∈ (attempt call).visits) :
    call.tried[v.host]? = some v.mxHost ∧ ∃ addresses,
      call.resolveMxAddresses v.host = .ok addresses ∧ v.address ∈ addresses := by
  obtain ⟨stop, hstop, hplace⟩ := List.mem_filterMap.mp (place_mem_stops hv)
  obtain ⟨host, hhost, hat⟩ := List.mem_flatMap.mp hstop
  obtain ⟨hi, hname, addresses, hok, hmem⟩ := place_stopsAt (List.mem_filterMap.mpr ⟨stop, hat, hplace⟩)
  have hv1 : v.host = host.2 := hi
  have hv2 : v.mxHost = host.1 := hname
  rw [hv1, hv2]
  exact ⟨List.mem_zipIdx_iff_getElem?.mp hhost, addresses, hok, hmem⟩

theorem countP_visits (call : Call) (mxHost : Text) :
    (attempt call).visits.countP (·.mxHost = mxHost) ≤
      MAX_ADDRESSES_PER_HOST * call.tried.count mxHost := by
  have hsub := @sublist_places call (start call) (stops call)
  rw [← attempt_eq_run] at hsub
  have hcount := hsub.countP_le (p := fun p => decide (p.2.1 = mxHost))
  rw [List.countP_map] at hcount
  refine hcount.trans ?_
  have hstops := @countP_stops call call.tried.zipIdx mxHost
  rw [List.zipIdx_map_fst] at hstops
  exact hstops

theorem length_dedup_hosts (call : Call) :
    ((attempt call).visits.map Visit.mxHost).dedup.length ≤ MAX_MX_HOSTS_PER_ATTEMPT := by
  have hsub : ((attempt call).visits.map Visit.mxHost).dedup ⊆ call.tried := by
    intro h hh
    obtain ⟨v, hv, rfl⟩ := List.mem_map.mp (List.mem_dedup.mp hh)
    exact List.mem_of_getElem? (place_of_visit hv).1
  refine (List.subperm_of_subset (List.nodup_dedup _) hsub).length_le.trans ?_
  unfold Call.tried
  rw [List.length_take]
  omega

/-! ## Every transaction gets an outcome -/

theorem filed_filed {mxHost : Text} {st : Failover} (h : st.Filed)
    (outcomes : List MxSessionOutcome) : (filed mxHost st outcomes).Filed :=
  foldl_invariant Failover.Filed (fun _ o h => filed_fileOutcome h o.routed) h outcomes

/-- Both tables file an outcome under its own key. -/
theorem filed_step (h : st.toFailover.Filed) (stop : Stop) :
    (step call st stop).toFailover.Filed := by
  cases stop with
  | skip e =>
    unfold step skipHost
    dsimp only
    split_ifs
    · exact ⟨h.1, h.2.foldl_put st.pending fun t => { key := t.key, error := some e }⟩
    · exact h
  | address i mxHost j a =>
    show (tryAddress call i mxHost st (a, j)).toFailover.Filed
    unfold tryAddress
    split_ifs with hgo
    · obtain ⟨waitMs, budgetMs, hunder⟩ := @underLock_eq call st hgo i j mxHost a
      rw [hunder]
      have hdefer : Emails.Filed (deferAll mxHost
          ((visitAt call i j mxHost a st).denied.map fun t => (t.key, waitMs)) st.done) :=
        h.1.foldl_put _ fun d : Text × ℚ =>
          { key := d.1, mxHost := some mxHost, deferredMs := some d.2 }
      exact @filed_filed mxHost ⟨st.pending, _, st.lastFailure,
        st.charged ++ (visitAt call i j mxHost a st).charged.map fun t =>
          (t.key, call.bucketOf mxHost), budgetMs⟩ ⟨hdefer, h.2⟩ _
    · exact h

theorem filed_attempt (call : Call) : (attempt call).toFailover.Filed := by
  rw [attempt_eq_run]
  exact foldl_invariant (fun st : Progress => st.toFailover.Filed)
    (fun _ stop h => filed_step h stop) ⟨filed_empty, filed_empty⟩ _

/-- One outcome for each transaction, in order, under its key. -/
theorem keys_deliverWithFailover (call : Call) :
    (deliverWithFailover call).map RoutedOutcome.key = call.transactions.map MxTransaction.key := by
  have hfiled := filed_attempt call
  unfold deliverWithFailover
  dsimp only
  rw [List.map_map]
  refine List.map_congr_left fun t _ => ?_
  rw [Function.comp_apply]
  cases hd : (attempt call).done.get? t.key with
  | some o => exact hfiled.1 _ _ hd
  | none =>
    cases hl : (attempt call).lastFailure.get? t.key with
    | some o => exact hfiled.2 _ _ hl
    | none => rfl

/-! ## At most once -/

/-- What an attempt does, for any call. -/
structure AtMostOnce (call : Call) : Prop where
  /-- Exactly one outcome for each transaction, in order. -/
  outcomes : (deliverWithFailover call).map RoutedOutcome.key =
    call.transactions.map MxTransaction.key
  /-- A transaction that was accepted, or answered with a reply that decides, is in no later
  session. -/
  settled : (attempt call).visits.Pairwise fun u v => ∀ t ∈ v.session, t.key ∉ u.settled
  /-- Under a budget, a session holds only transactions charged a token of its bucket by then. -/
  charged : ∀ before v, before ++ [v] <+: (attempt call).visits → ChargedBy before v
  /-- No visit charges a transaction twice, and no two visits of a bucket charge the same one. -/
  once : (∀ v ∈ (attempt call).visits, v.charged.Sublist call.transactions) ∧
    (attempt call).visits.Pairwise fun u v => u.bucket = v.bucket →
      ∀ t ∈ u.charged, ∀ t' ∈ v.charged, t.key ≠ t'.key
  /-- At most five hosts. -/
  hosts : ((attempt call).visits.map Visit.mxHost).dedup.length ≤ 5
  /-- At most two addresses for each time a host is in the list. -/
  addresses : ∀ mxHost, (attempt call).visits.countP (·.mxHost = mxHost) ≤
    2 * call.hosts.count mxHost
  /-- All of them addresses that the host resolved to. -/
  resolved : ∀ v ∈ (attempt call).visits, call.hosts[v.host]? = some v.mxHost ∧
    ∃ addresses, call.resolveMxAddresses v.host = .ok addresses ∧ v.address ∈ addresses

/-- **Failover delivers each transaction at most once**, whatever the hosts, the addresses, the
budget, the time and the sessions. -/
theorem atMostOnce (call : Call) : AtMostOnce call where
  outcomes := keys_deliverWithFailover call
  settled := (inv_attempt call).follows.imp fun h => h.settled
  charged := (inv_attempt call).by_
  once := ⟨fun v hv => ((inv_attempt call).sublist v hv).2,
    (inv_attempt call).follows.imp fun h => h.charged⟩
  hosts := length_dedup_hosts call
  addresses mxHost := (countP_visits call mxHost).trans
    (Nat.mul_le_mul_left 2 ((List.take_sublist _ _).count_le mxHost))
  resolved v hv := by
    obtain ⟨hhost, haddress⟩ := place_of_visit hv
    refine ⟨?_, haddress⟩
    unfold Call.tried at hhost
    rw [List.getElem?_take] at hhost
    split_ifs at hhost with hlt
    exact hhost

end Once


end BunMail.Emails.FailoverLog
