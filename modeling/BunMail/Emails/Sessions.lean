import BunMail.Emails.Mailer
import BunMail.Lib.Run

/-!
# Sessions of enforced domains

A session plan is made for the first domain of its text and takes in every later domain with the
same text.  The text of an enforced domain starts with `mta-sts `, but so does the text of an
unenforced domain whose first host is called `mta-sts`, and host names with spaces join to the
text of other lists of hosts.  The plans keep what MTA-STS promises exactly when no such texts
meet.
-/

namespace BunMail.Emails

section Sessions

variable (toLowerCase : Text → Text) (options : SendMailOptions) (env : MailerEnv)

/-- The text of the session a domain goes to, if it has hosts to try. -/
def routeText (domain : Text) : Option Text :=
  match domainHosts toLowerCase env domain with
  | .ok hosts => some (sessionId (enforces (env.policy domain)) hosts)
  | .error _ => none

/-- Every transaction of an enforced domain is in a plan with verified TLS and hosts its policy
names, and no plan mixes enforced and unenforced domains. -/
structure EnforcedSafe (sessions : Sessions) : Prop where
  verified : ∀ id plan, sessions.get? id = some plan → ∀ t ∈ plan.transactions,
    ∀ p, env.policy t.domain = some p → p.policy.mode = .enforce →
      plan.verifiedTls = true ∧ ∀ host ∈ plan.hosts, matchesPolicy toLowerCase p.policy host = true
  unmixed : ∀ id plan, sessions.get? id = some plan → ∀ d ∈ plan.domains, ∀ d' ∈ plan.domains,
    enforces (env.policy d) = enforces (env.policy d')

/-- The condition on the pending domains: a domain and the first one with its session text are
both enforced or both not, and the hosts of the first one are among those its policy names. -/
def SharesSafely (domains : List Text) : Prop :=
  ∀ d ∈ domains, (routeText toLowerCase env d).isSome →
    ∀ d₀ ∈ domains.find? (routeText toLowerCase env · = routeText toLowerCase env d),
      enforces (env.policy d) = enforces (env.policy d₀) ∧
        ∀ hosts, domainHosts toLowerCase env d₀ = .ok hosts →
          ∀ host ∈ hosts, Permitted toLowerCase (env.policy d) host

/-! ## What planning builds -/

/-- The plan of the text `id` after the domains `done`. -/
structure PlanOf (done : List Text) (id : Text) (plan : MxSessionPlan) : Prop where
  domains : plan.domains = done.filter (routeText toLowerCase env · = some id)
  first : ∃ d rest, plan.domains = d :: rest ∧ domainHosts toLowerCase env d = .ok plan.hosts ∧
    plan.verifiedTls = enforces (env.policy d)
  transactions : ∀ t ∈ plan.transactions, t.domain ∈ plan.domains

/-- The plans after the pending domains `done` of `state`. -/
structure Planned (state : DeliveryState) (done : List (Text × List Text)) (plans : Plans) :
    Prop where
  keys : plans.state.keys = state.keys
  plan : ∀ id plan, plans.sessions.get? id = some plan →
    PlanOf toLowerCase env (done.map Prod.fst) id plan
  listed : ∀ p ∈ done, ∀ id, routeText toLowerCase env p.1 = some id →
    ∃ plan, plans.sessions.get? id = some plan ∧
      ∀ key ∈ p.2, key ∈ state.keys → ∃ t ∈ plan.transactions, t.key = key ∧ t.domain = p.1

variable {toLowerCase options env} {state : DeliveryState} {done : List (Text × List Text)}
  {plans : Plans} {p : Text × List Text}

theorem routeText_of_ok {domain : Text} {hosts : List Text}
    (h : domainHosts toLowerCase env domain = .ok hosts) :
    routeText toLowerCase env domain = some (sessionId (enforces (env.policy domain)) hosts) := by
  unfold routeText
  rw [h]

theorem routeText_of_error {domain : Text} {unsent : Unsent}
    (h : domainHosts toLowerCase env domain = .error unsent) :
    routeText toLowerCase env domain = none := by
  unfold routeText
  rw [h]

/-- Plans other than that of the new domain's text are as they were. -/
theorem PlanOf.concat_ne {done : List Text} {id : Text} {plan : MxSessionPlan} {d : Text}
    (h : PlanOf toLowerCase env done id plan) (hd : routeText toLowerCase env d ≠ some id) :
    PlanOf toLowerCase env (done ++ [d]) id plan := by
  refine ⟨?_, h.first, h.transactions⟩
  rw [List.filter_append, h.domains]
  simp [hd]

theorem PlanOf.concat {done : List Text} {id : Text} {plan : MxSessionPlan} {d : Text}
    {ts : List MxTransaction} (h : PlanOf toLowerCase env done id plan)
    (hd : routeText toLowerCase env d = some id) (hts : ∀ t ∈ ts, t.domain = d) :
    PlanOf toLowerCase env (done ++ [d]) id
      { plan with domains := plan.domains ++ [d], transactions := plan.transactions ++ ts } := by
  obtain ⟨d₀, rest, hdom, hhosts, htls⟩ := h.first
  refine ⟨?_, ⟨d₀, rest ++ [d], ?_, hhosts, htls⟩, ?_⟩
  · rw [List.filter_append, ← h.domains]
    simp [hd]
  · rw [hdom, List.cons_append]
  · intro t ht
    rcases List.mem_append.mp ht with ht | ht
    · exact List.mem_append_left _ (h.transactions t ht)
    · rw [hts t ht]
      exact List.mem_append_right _ (List.mem_singleton_self _)

/-- The first plan of a text. -/
theorem planOf_first {done : List Text} {d : Text} {hosts : List Text} {ts : List MxTransaction}
    (hok : domainHosts toLowerCase env d = .ok hosts)
    (hnew : ∀ x ∈ done, routeText toLowerCase env x ≠ routeText toLowerCase env d)
    (hts : ∀ t ∈ ts, t.domain = d) :
    PlanOf toLowerCase env (done ++ [d]) (sessionId (enforces (env.policy d)) hosts)
      ⟨hosts, [d], ts, enforces (env.policy d)⟩ := by
  have hd := routeText_of_ok hok
  refine ⟨?_, ⟨d, [], rfl, hok, rfl⟩, fun t ht => by rw [hts t ht]; exact List.mem_singleton_self _⟩
  have hnil : done.filter (routeText toLowerCase env · =
      some (sessionId (enforces (env.policy d)) hosts)) = [] := by
    rw [List.filter_eq_nil_iff]
    intro x hx
    rw [← hd]
    simpa using hnew x hx
  rw [List.filter_append, hnil]
  simp [hd]

theorem domain_of_mem_transactionsOf {paths : Option ReturnPaths} {from_ domain : Text}
    {keys : List Text} {t : MxTransaction}
    (h : t ∈ transactionsOf toLowerCase state paths from_ domain keys) : t.domain = domain := by
  obtain ⟨key, _, hk⟩ := List.mem_filterMap.mp h
  obtain ⟨group, _, rfl⟩ := Option.map_eq_some_iff.mp hk
  rfl

theorem exists_mem_transactionsOf {paths : Option ReturnPaths} {from_ domain key : Text}
    {keys : List Text} (hk : key ∈ keys) (hs : key ∈ state.keys) :
    ∃ t ∈ transactionsOf toLowerCase state paths from_ domain keys, t.key = key ∧ t.domain = domain := by
  obtain ⟨group, hg⟩ := Option.isSome_iff_exists.mp (Table.get?_isSome_iff.mpr hs)
  exact ⟨_, List.mem_filterMap.mpr ⟨key, hk, by rw [hg]; rfl⟩, rfl, rfl⟩

theorem keys_foldl_recordUnsent {unsent : Unsent} {mtaSts : Option DeliveryMtaSts}
    {at_ : Text → Time} (keys : List Text) (state : DeliveryState) :
    (keys.foldl (fun s key => recordUnsent s key unsent mtaSts (at_ key)) state).keys =
      state.keys :=
  Run.foldl_invariant (fun s => Table.keys s = state.keys)
    (fun s key h => (keys_recordUnsent s key unsent mtaSts (at_ key)).trans h) rfl keys

/-- **Step.** One more pending domain. -/
theorem planned_planDomain (h : Planned toLowerCase env state done plans) :
    Planned toLowerCase env state (done ++ [p]) (planDomain toLowerCase options env plans p) := by
  obtain ⟨d, keys⟩ := p
  unfold planDomain
  dsimp only
  cases hd : domainHosts toLowerCase env d with
  | error unsent =>
    have hnone := routeText_of_error hd
    refine ⟨?_, ?_, ?_⟩
    · exact (keys_foldl_recordUnsent keys plans.state).trans h.keys
    · intro id plan hp
      rw [List.map_append]
      exact (h.plan id plan hp).concat_ne (by rw [hnone]; exact fun e => (by cases e))
    · intro q hq id hid
      rcases List.mem_append.mp hq with hq | hq
      · exact h.listed q hq id hid
      · rw [List.mem_singleton.mp hq, hnone] at hid
        cases hid
  | ok hosts =>
    have hid := routeText_of_ok hd
    dsimp only
    generalize hts : transactionsOf toLowerCase plans.state (returnPathsOf toLowerCase options env)
      options.from_ d keys = ts
    have htsd : ∀ t ∈ ts, t.domain = d := fun t ht =>
      domain_of_mem_transactionsOf (hts ▸ ht)
    have htsk : ∀ key ∈ keys, key ∈ state.keys → ∃ t ∈ ts, t.key = key ∧ t.domain = d := by
      intro key hk hs
      rw [← h.keys] at hs
      rw [← hts]
      exact exists_mem_transactionsOf hk hs
    generalize htext : sessionId (enforces (env.policy d)) hosts = id at hid ⊢
    refine ⟨h.keys, ?_, ?_⟩
    · intro id' plan hp
      rw [List.map_append]
      rw [Table.get?_put] at hp
      split_ifs at hp with hii
      · -- the text of the domain: a plan that was there, or a new one
        subst hii
        rw [← Option.some.inj hp]
        cases hs : plans.sessions.get? id' with
        | some plan₀ => exact (h.plan id' plan₀ hs).concat hid htsd
        | none =>
          rw [← htext]
          refine planOf_first hd ?_ htsd
          intro x hx hxd
          obtain ⟨q, hq, rfl⟩ := List.mem_map.mp hx
          obtain ⟨plan₀, hplan₀, _⟩ := h.listed q hq id' (hxd.trans hid)
          rw [hs] at hplan₀
          cases hplan₀
      · refine (h.plan id' plan hp).concat_ne ?_
        rw [hid]
        exact fun e => hii (Option.some.inj e).symm
    · intro q hq id' hid'
      rcases List.mem_append.mp hq with hq | hq
      · obtain ⟨plan, hplan, hkeys⟩ := h.listed q hq id' hid'
        by_cases hii : id' = id
        · subst hii
          refine ⟨_, Table.get?_put_self, fun key hk hs => ?_⟩
          obtain ⟨t, ht, htk⟩ := hkeys key hk hs
          rw [hplan]
          exact ⟨t, List.mem_append_left _ ht, htk⟩
        · exact ⟨plan, (Table.get?_put_ne hii).trans hplan, hkeys⟩
      · rw [List.mem_singleton] at hq
        subst hq
        have hii : id' = id := Option.some.inj (hid'.symm.trans hid)
        subst hii
        refine ⟨_, Table.get?_put_self, fun key hk hs => ?_⟩
        obtain ⟨t, ht, htk⟩ := htsk key hk hs
        exact ⟨t, List.mem_append_right _ ht, htk⟩

theorem planned_planSessions (state : DeliveryState) :
    Planned toLowerCase env state (pendingByDomain state)
      (planSessions toLowerCase options env state) := by
  unfold planSessions
  generalize pendingByDomain state = pending
  induction pending using List.reverseRecOn with
  | nil =>
    exact ⟨rfl, fun id plan h => (by cases h), fun p hp => (by cases hp)⟩
  | append_singleton pending p ih =>
    rw [List.foldl_append]
    exact planned_planDomain ih

/-- A pending domain has a key, and its keys are keys of the state. -/
theorem keys_of_pendingByDomain (hp : p ∈ pendingByDomain state) :
    p.2 ≠ [] ∧ ∀ key ∈ p.2, key ∈ state.keys := by
  obtain ⟨b, hb, rfl⟩ := List.mem_map.mp hp
  obtain ⟨hne, _⟩ := Table.mem_groupBy _ hb
  refine ⟨fun h => hne (List.map_eq_nil_iff.mp h), fun key hk => ?_⟩
  obtain ⟨e, he, rfl⟩ := List.mem_map.mp hk
  have hmem : e ∈ pendingEntries state :=
    (Table.perm_groupBy Prod.fst (pendingEntries state)).subset (List.mem_flatMap.mpr ⟨b, hb, he⟩)
  obtain ⟨⟨key, group⟩, hrow, hsome⟩ := List.mem_filterMap.mp hmem
  dsimp only at hsome
  split_ifs at hsome
  obtain ⟨domain, _, rfl⟩ := Option.map_eq_some_iff.mp hsome
  exact List.mem_map.mpr ⟨(key, group), hrow, rfl⟩

/-- The first domain of a plan is the first pending one with its text. -/
theorem PlanOf.find?_eq {done : List Text} {id d₀ : Text} {plan : MxSessionPlan} {rest : List Text}
    (h : PlanOf toLowerCase env done id plan) (hd : plan.domains = d₀ :: rest) :
    done.find? (routeText toLowerCase env · = some id) = some d₀ := by
  rw [← List.head?_filter, ← h.domains, hd, List.head?_cons]

/-- **Sessions.** The plans of a call keep what MTA-STS promises exactly when the pending domains
share their session texts safely. -/
theorem enforcedSafe_iff (state : DeliveryState) :
    EnforcedSafe toLowerCase env (planSessions toLowerCase options env state).sessions ↔
      SharesSafely toLowerCase env ((pendingByDomain state).map Prod.fst) := by
  have hplanned : Planned toLowerCase env state (pendingByDomain state)
      (planSessions toLowerCase options env state) := planned_planSessions state
  constructor
  · intro hsafe d hd hsome d₀ hd₀
    obtain ⟨id, hid⟩ := Option.isSome_iff_exists.mp hsome
    obtain ⟨p, hp, rfl⟩ := List.mem_map.mp hd
    obtain ⟨plan, hplan, hkeys⟩ := hplanned.listed p hp id hid
    have hof := hplanned.plan id plan hplan
    obtain ⟨f, rest, hf, hhosts, _⟩ := hof.first
    rw [hid, hof.find?_eq hf] at hd₀
    cases hd₀
    have hmem : p.1 ∈ plan.domains := by
      rw [hof.domains, List.mem_filter]
      exact ⟨hd, by simpa using hid⟩
    refine ⟨hsafe.unmixed id plan hplan _ hmem _ (hf ▸ List.mem_cons_self), ?_⟩
    intro hosts hok host hhost policy hpol hmode
    rw [hhosts] at hok
    cases hok
    obtain ⟨hne, hin⟩ := keys_of_pendingByDomain hp
    obtain ⟨key, hkey⟩ := List.exists_mem_of_ne_nil _ hne
    obtain ⟨t, ht, _, htd⟩ := hkeys key hkey (hin key hkey)
    exact (hsafe.verified id plan hplan t ht policy (htd ▸ hpol) hmode).2 host hhost
  · intro hshare
    have hfirst : ∀ id plan, (planSessions toLowerCase options env state).sessions.get? id =
        some plan → ∀ d ∈ plan.domains, enforces (env.policy d) = plan.verifiedTls ∧
          ∀ host ∈ plan.hosts, Permitted toLowerCase (env.policy d) host := by
      intro id plan hplan d hd
      have hof := hplanned.plan id plan hplan
      obtain ⟨f, rest, hf, hhosts, htls⟩ := hof.first
      rw [hof.domains, List.mem_filter] at hd
      have hid : routeText toLowerCase env d = some id := by simpa using hd.2
      obtain ⟨heq, hperm⟩ := hshare d hd.1 (by rw [hid]; rfl) f (by rw [hid]; exact hof.find?_eq hf)
      exact ⟨heq.trans htls.symm, hperm plan.hosts hhosts⟩
    constructor
    · intro id plan hplan t ht policy hpol hmode
      obtain ⟨heq, hperm⟩ :=
        hfirst id plan hplan t.domain ((hplanned.plan id plan hplan).transactions t ht)
      refine ⟨heq.symm.trans (enforces_iff.mpr ⟨policy, hpol, hmode⟩), fun host hh => ?_⟩
      exact hperm host hh policy hpol hmode
    · intro id plan hplan d hd d' hd'
      rw [(hfirst id plan hplan d hd).1, (hfirst id plan hplan d' hd').1]

end Sessions

/-! ## A host called `mta-sts` -/

/-- An email to a domain `u.org` without a policy and to a domain `v.org` that enforces one. -/
def twoDomains : SendMailOptions where
  from_ := "s@from.org"
  to_ := "a@u.org,b@v.org"
  cc := none
  bcc := none
  messageId := "<1@from.org>"
  existingState := none
  returnPath := none

/-- The MX hosts of `u.org` are `mta-sts` and then that of `v.org`. -/
def sharedHost : MailerEnv where
  dns domain :=
    { resolveMx := .ok (if domain = "u.org".toList then [⟨"mta-sts", 0⟩, ⟨"mx.v.org", 10⟩]
        else [⟨"mx.v.org", 10⟩])
      resolve4 := .ok []
      resolve6 := .ok []
      ties := fun _ => 0 }
  policy domain :=
    if domain = "v.org".toList then some ⟨"1", ⟨.enforce, ["mx.v.org"], 86400⟩⟩ else none
  signed := .unsigned
  mintReturnPath _ _ _ _ := none
  bucketOf host := host
  hostInputs _ _ := ⟨.ok [], fun _ => ⟨none, fun _ => ⟨true, .resolved [] [], none⟩, 0⟩⟩
  recordedAt _ := 0

/-- The enforced domain joins the unverified session of the other, to a host its policy does not
name. -/
theorem not_enforcedSafe_sharedHost :
    ¬ EnforcedSafe id sharedHost
      (planSessions id twoDomains sharedHost (startState id twoDomains sharedHost)).sessions := by
  intro h
  have hmixed := h.unmixed "mta-sts mx.v.org"
    ⟨["mta-sts", "mx.v.org"], ["u.org", "v.org"],
      [⟨"u.org", "u.org", ["a@u.org"], "s@from.org"⟩, ⟨"v.org", "v.org", ["b@v.org"], "s@from.org"⟩],
      false⟩ (by decide) "u.org" (by decide) "v.org" (by decide)
  revert hmixed
  decide

end BunMail.Emails
