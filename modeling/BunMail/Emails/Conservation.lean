import BunMail.Emails.DeliverySteps

/-!
# No recipient is lost or duplicated

Up to order, the recipients of the delivery state and those dropped as suppressed are the accepted
recipients, after every step of every attempt, as long as re-filing assigns no key twice.  The
passes that re-file do not look whether a key is taken, so an address syntax that lets a domain
contain `#` or `|` breaks it.
-/

namespace BunMail.Emails

open Recipients Run

/-- The entry's domain is the lowercased domain of its recipients, when set. -/
def DomainsMatch (toLowerCase : Text → Text) (group : DeliveryGroup) : Prop :=
  ∀ d ∈ group.domain, ∀ r ∈ group.recipients, domainOf toLowerCase r = d

/-- No two recipients of the state differ by case only, and every entry has the domain of its
recipients. -/
structure WellFiled (toLowerCase : Text → Text) (state : DeliveryState) : Prop where
  distinct : ((recipientsOf state).map toLowerCase).Nodup
  domain : ∀ key group, state.get? key = some group → DomainsMatch toLowerCase group

section Conservation

variable {toLowerCase : Text → Text} {state : DeliveryState} {op : StateOp} {key : Text}
  {group : DeliveryGroup}

theorem WellFiled.nodup (h : WellFiled toLowerCase state) : (recipientsOf state).Nodup :=
  h.distinct.of_map _

/-! ## Every step keeps the recipients it does not drop -/

theorem perm_dropGroup (isSuppressed : Text → Bool) (now : Time) (group : DeliveryGroup) :
    ((dropGroup isSuppressed now group).recipients ++
      if group.status = .retry ∧ (group.recipients.filter fun r => !isSuppressed r) ≠ [] then
        group.recipients.filter isSuppressed
      else []).Perm group.recipients := by
  have hsplit : ((group.recipients.filter fun r => !isSuppressed r) ++
      group.recipients.filter isSuppressed).Perm group.recipients :=
    List.perm_append_comm.trans (List.filter_append_perm isSuppressed group.recipients)
  unfold dropGroup
  by_cases hret : group.status = .retry
  · rw [if_neg (by simp [hret])]
    dsimp only
    by_cases hlen : (group.recipients.filter fun r => !isSuppressed r).length =
        group.recipients.length
    · -- nobody is suppressed
      rw [if_pos hlen]
      have hnil : group.recipients.filter isSuppressed = [] := by
        have := hsplit.length_eq
        rw [List.length_append] at this
        exact List.length_eq_zero_iff.mp (by omega)
      rw [hnil, ite_self, List.append_nil]
    · rw [if_neg hlen]
      by_cases hkept : (group.recipients.filter fun r => !isSuppressed r) = []
      · rw [if_pos hkept, if_neg (by simp [hkept]), List.append_nil]
      · rw [if_neg hkept, if_pos ⟨hret, hkept⟩]
        exact hsplit
  · rw [if_pos hret, if_neg (fun h => hret h.1), List.append_nil]

theorem perm_dropSuppressed (isSuppressed : Text → Bool) (now : Time) (state : DeliveryState) :
    (recipientsOf (dropSuppressedRecipients isSuppressed now state) ++
      droppedBy state (.dropSuppressed isSuppressed now)).Perm (recipientsOf state) := by
  unfold dropSuppressedRecipients Table.mapValues Table.updateAll recipientsOf droppedBy
  dsimp only
  induction state.rows with
  | nil => exact List.Perm.refl _
  | cons e rows ih =>
    rw [List.map_cons, List.flatMap_cons, List.flatMap_cons, List.flatMap_cons]
    have hhead := perm_dropGroup isSuppressed now e.2
    rw [List.perm_iff_count] at hhead ih ⊢
    intro r
    have h₁ := hhead r
    have h₂ := ih r
    simp only [List.count_append] at h₁ h₂ ⊢
    omega

theorem recipientsOf_finalState (state : DeliveryState) (deferred : List Text) :
    recipientsOf (finalStateOf state deferred) = recipientsOf state := by
  unfold recipientsOf finalStateOf Table.mapValues Table.updateAll
  rw [List.flatMap_map]
  congr 1
  funext e
  unfold flipGroup
  split_ifs <;> rfl

theorem perm_recordUnsent (unsent : Unsent) (mtaSts : Option DeliveryMtaSts) (now : Time) :
    (recipientsOf (recordUnsent state key unsent mtaSts now)).Perm (recipientsOf state) := by
  unfold recordUnsent
  cases h : state.get? key with
  | none => exact List.Perm.refl _
  | some group => exact perm_recipientsOf_put_same h rfl

theorem perm_append_dropped_nil {l l' : List Text} (h : l.Perm l') : (l ++ []).Perm l' := by
  rwa [List.append_nil]

/-- **Conservation.** A step keeps every recipient it does not drop. -/
theorem perm_applyOp (h : (recipientsOf state).Nodup) (hc : CleanOp toLowerCase state op) :
    (recipientsOf (applyOp toLowerCase state op) ++ droppedBy state op).Perm
      (recipientsOf state) := by
  cases op with
  | dropSuppressed isSuppressed now => exact perm_dropSuppressed isSuppressed now state
  | withDomains =>
    apply perm_append_dropped_nil
    exact perm_recipientsOf_pass (fun _ => refiles_domainPieces) hc
  | splitPerRecipient paths =>
    apply perm_append_dropped_nil
    exact perm_recipientsOf_pass (fun _ => refiles_recipientPieces) hc
  | recordUnsent key unsent mtaSts now =>
    apply perm_append_dropped_nil
    exact perm_recordUnsent unsent mtaSts now
  | recordOutcome outcome messageId order mtaSts now =>
    apply perm_append_dropped_nil
    exact perm_recipientsOf_recordOutcome h
  | settle deferred =>
    apply perm_append_dropped_nil
    exact List.Perm.of_eq (recipientsOf_finalState state deferred)
  | store =>
    apply perm_append_dropped_nil
    exact perm_jsonb.flatMap_right _

/-! ## Entries come from entries -/

/-- What an entry after a step takes over from one before it: recipients, and the domain unless
it is set now. -/
structure ComesFrom (toLowerCase : Text → Text) (group₀ group : DeliveryGroup) : Prop where
  recipients : ∀ r ∈ group.recipients, r ∈ group₀.recipients
  domain : DomainsMatch toLowerCase group₀ → DomainsMatch toLowerCase group

theorem comesFrom_of_domain {group₀ : DeliveryGroup} (hd : group.domain = group₀.domain)
    (hr : ∀ r ∈ group.recipients, r ∈ group₀.recipients) : ComesFrom toLowerCase group₀ group :=
  ⟨hr, fun h d hdom r hmem => h d (hd ▸ hdom) r (hr r hmem)⟩

/-- The pieces of `withDomains` have the domain of their recipients. -/
theorem domainsMatch_domainPieces {e p : Text × DeliveryGroup}
    (hp : p ∈ domainPieces toLowerCase e) (h : DomainsMatch toLowerCase e.2) :
    DomainsMatch toLowerCase p.2 := by
  obtain ⟨key, group⟩ := e
  unfold domainPieces at hp
  dsimp only at hp
  split_ifs at hp with hkeep hone
  · rw [List.mem_singleton.mp hp]
    exact h
  · -- one domain: every recipient is in the only bucket
    rw [List.mem_singleton.mp hp]
    obtain ⟨b, hb⟩ := List.length_eq_one_iff.mp hone
    have hperm := Table.perm_groupBy (domainOf toLowerCase) group.recipients
    have hdom : ∀ r ∈ group.recipients, domainOf toLowerCase r = b.1 := by
      intro r hr
      rw [hb, List.flatMap_singleton] at hperm
      exact (Table.mem_groupBy _ (hb ▸ List.mem_singleton_self b)).2 r (hperm.mem_iff.mpr hr)
    rintro d hd r hr
    cases hd
    cases hrs : group.recipients with
    | nil =>
      dsimp only at hr
      rw [hrs] at hr
      cases hr
    | cons r₀ rest =>
      rw [hdom r hr, List.headD_cons, hdom r₀ (hrs ▸ List.mem_cons_self)]
  · obtain ⟨b, hb, rfl⟩ := List.mem_map.mp hp
    rintro d hd r hr
    cases hd
    exact (Table.mem_groupBy _ hb).2 r hr

theorem domainsMatch_recipientPieces {paths : ReturnPaths} {e p : Text × DeliveryGroup}
    (hp : p ∈ recipientPieces toLowerCase paths e) (h : DomainsMatch toLowerCase e.2) :
    DomainsMatch toLowerCase p.2 := by
  obtain ⟨key, group⟩ := e
  unfold recipientPieces at hp
  dsimp only at hp
  split_ifs at hp
  · rw [List.mem_singleton.mp hp]
    exact h
  · obtain ⟨⟨r, i⟩, hri, rfl⟩ := List.mem_map.mp hp
    rintro d hd r' hr'
    rw [List.mem_singleton.mp hr']
    exact h d hd r (List.fst_mem_of_mem_zipIdx hri)

/-- Every entry after a step comes from one entry before it. -/
theorem comesFrom_applyOp (hc : CleanOp toLowerCase state op)
    (hg : (applyOp toLowerCase state op).get? key = some group) :
    ∃ key₀ group₀, state.get? key₀ = some group₀ ∧ ComesFrom toLowerCase group₀ group := by
  cases op with
  | dropSuppressed isSuppressed now =>
    rw [applyOp, dropSuppressedRecipients, Table.get?_mapValues] at hg
    obtain ⟨group₀, h₀, rfl⟩ := Option.map_eq_some_iff.mp hg
    refine ⟨key, group₀, h₀, ?_⟩
    unfold dropGroup
    dsimp only
    split_ifs
    · exact comesFrom_of_domain rfl fun r hr => hr
    · exact comesFrom_of_domain rfl fun r hr => hr
    · exact comesFrom_of_domain rfl fun r hr => hr
    · exact comesFrom_of_domain rfl fun r hr => (List.mem_filter.mp hr).1
  | withDomains =>
    obtain ⟨e, he, hp, _, hr⟩ := exists_of_get?_pass (fun _ => refiles_domainPieces) hc hg
    exact ⟨e.1, e.2, Table.get?_eq_some_iff.mpr he, hr, domainsMatch_domainPieces hp⟩
  | splitPerRecipient paths =>
    obtain ⟨e, he, hp, _, hr⟩ := exists_of_get?_pass (fun _ => refiles_recipientPieces) hc hg
    exact ⟨e.1, e.2, Table.get?_eq_some_iff.mpr he, hr, domainsMatch_recipientPieces hp⟩
  | recordUnsent key' unsent mtaSts now =>
    rw [applyOp, recordUnsent] at hg
    cases h : state.get? key' with
    | none =>
      rw [h] at hg
      exact ⟨key, group, hg, comesFrom_of_domain rfl fun r hr => hr⟩
    | some group₀ =>
      rw [h] at hg
      dsimp only at hg
      rw [Table.get?_put] at hg
      split_ifs at hg with hk
      · rw [← Option.some.inj hg]
        exact ⟨key', group₀, h, comesFrom_of_domain rfl fun r hr => hr⟩
      · exact ⟨key, group, hg, comesFrom_of_domain rfl fun r hr => hr⟩
  | recordOutcome outcome messageId order mtaSts now =>
    rcases get?_recordOutcome hg with h | ⟨_, group₀, h, hd, hr⟩
    · exact ⟨key, group, h, comesFrom_of_domain rfl fun r hr => hr⟩
    · exact ⟨outcome.key, group₀, h, comesFrom_of_domain hd hr⟩
  | settle deferred =>
    rw [applyOp, finalStateOf, Table.get?_mapValues] at hg
    obtain ⟨group₀, h₀, rfl⟩ := Option.map_eq_some_iff.mp hg
    refine ⟨key, group₀, h₀, ?_⟩
    unfold flipGroup
    split_ifs <;> exact comesFrom_of_domain rfl fun r hr => hr
  | store =>
    rw [applyOp, get?_jsonb] at hg
    exact ⟨key, group, hg, comesFrom_of_domain rfl fun r hr => hr⟩

/-- **Step.** -/
theorem wellFiled_applyOp (h : WellFiled toLowerCase state) (hc : CleanOp toLowerCase state op) :
    WellFiled toLowerCase (applyOp toLowerCase state op) := by
  constructor
  · have hp := (perm_applyOp h.nodup hc).map toLowerCase
    rw [List.map_append] at hp
    exact (List.nodup_append.mp (hp.nodup_iff.mpr h.distinct)).1
  · intro key group hg
    obtain ⟨key₀, group₀, h₀, hfrom⟩ := comesFrom_applyOp hc hg
    exact hfrom.domain (h.domain key₀ group₀ h₀)

/-! ## The state of a first attempt -/

variable {e : Envelope}

variable (toLowerCase) in
/-- The addresses `parseRecipients` accepts. -/
def acceptedOf (e : Envelope) : List Text :=
  (parseRecipients toLowerCase e.to_ e.cc e.bcc).map Recipient.address

theorem distinct_acceptedOf : ((acceptedOf toLowerCase e).map toLowerCase).Nodup := by
  unfold acceptedOf
  rw [List.map_map]
  exact nodup_recipientOrder

theorem rows_buildInitialState {to_ : Text} {cc bcc : Option Text} :
    (buildInitialState toLowerCase to_ cc bcc).rows =
      (groupByDomain (parseRecipients toLowerCase to_ cc bcc)).rows.map fun (domain, rcpts) =>
        (domain,
          { status := .retry, recipients := rcpts.map Recipient.address, attempts := 0,
            domain := some domain }) := by
  unfold buildInitialState
  apply Table.ofEntries_rows
  rw [List.map_map]
  exact (groupByDomain _).unique

theorem perm_recipientsOf_buildInitialState :
    (recipientsOf (buildInitialState toLowerCase e.to_ e.cc e.bcc)).Perm
      (acceptedOf toLowerCase e) := by
  unfold recipientsOf
  rw [rows_buildInitialState, List.flatMap_map]
  have h := (Table.perm_groupBy Recipient.domain
    (parseRecipients toLowerCase e.to_ e.cc e.bcc)).map Recipient.address
  rwa [List.map_flatMap] at h

theorem domainsMatch_buildInitialState
    (h : (buildInitialState toLowerCase e.to_ e.cc e.bcc).get? key = some group) :
    DomainsMatch toLowerCase group := by
  rw [Table.get?_eq_some_iff, rows_buildInitialState, List.mem_map] at h
  obtain ⟨⟨domain, rcpts⟩, hb, heq⟩ := h
  rw [← (Prod.mk.inj heq).2]
  rintro d hd r hr
  cases hd
  obtain ⟨rcpt, hrcpt, rfl⟩ := List.mem_map.mp hr
  have hmem : rcpt ∈ parseRecipients toLowerCase e.to_ e.cc e.bcc :=
    (Table.perm_groupBy Recipient.domain _).mem_iff.mp
      (List.mem_flatMap.mpr ⟨_, hb, hrcpt⟩)
  rw [← domain_of_mem_parseRecipients hmem]
  exact (Table.mem_groupBy _ hb).2 rcpt hrcpt

/-! ## Whole histories -/

/-- The delivery state with the recipients dropped from it so far. -/
structure Tracked where
  state : DeliveryState
  dropped : List Text

variable (toLowerCase) in
/-- A step, with the recipients it drops. -/
def trackOp (t : Tracked) (op : StateOp) : Tracked :=
  ⟨applyOp toLowerCase t.state op, t.dropped ++ droppedBy t.state op⟩

theorem state_run_trackOp (t : Tracked) (ops : List StateOp) :
    (run (trackOp toLowerCase) t ops).state = run (applyOp toLowerCase) t.state ops := by
  induction ops generalizing t with
  | nil => rfl
  | cons op ops ih => exact ih _

variable (toLowerCase) in
/-- Every accepted recipient that was not dropped occurs once in the whole state, so in exactly one
entry and there exactly once, and every entry has the domain of its recipients. -/
structure Conserved (accepted : List Text) (t : Tracked) : Prop where
  once : ∀ r ∈ accepted, r ∉ t.dropped → (recipientsOf t.state).count r = 1
  domain : ∀ key group, t.state.get? key = some group → DomainsMatch toLowerCase group

variable (toLowerCase) in
/-- The step overwrites no entry by one of another recipient: whom an entry holds, unless dropped,
is afterwards in an entry that holds nobody else's recipients. -/
def KeepsEntries (state : DeliveryState) (op : StateOp) : Prop :=
  ∀ key group, state.get? key = some group → ∀ r ∈ group.recipients, r ∉ droppedBy state op →
    ∃ key' group', (applyOp toLowerCase state op).get? key' = some group' ∧
      r ∈ group'.recipients ∧ ∀ r' ∈ group'.recipients, r' ∈ group.recipients

variable (toLowerCase) in
/-- Where a history starts: with no stored state, or with a stored one that holds the accepted
recipients but those already dropped.  Its entries may be from before the domain column. -/
structure Starts (e : Envelope) (l : Ledger) (dropped : List Text) : Prop where
  fresh : l.Fresh toLowerCase e
  holds : (recipientsOf l.state ++ dropped).Perm (acceptedOf toLowerCase e)
  domain : ∀ key group, l.state.get? key = some group → DomainsMatch toLowerCase group

/-- A new row starts a history. -/
theorem starts_new : Starts toLowerCase e ⟨buildInitialState toLowerCase e.to_ e.cc e.bcc, false⟩ [] where
  fresh _ := rfl
  holds := perm_append_dropped_nil perm_recipientsOf_buildInitialState
  domain _ _ := domainsMatch_buildInitialState

/-- The recipients of the state and those dropped are the accepted ones, well filed. -/
structure Accounted (toLowerCase : Text → Text) (accepted : List Text) (t : Tracked) : Prop where
  perm : (recipientsOf t.state ++ t.dropped).Perm accepted
  filed : WellFiled toLowerCase t.state

variable {accepted : List Text} {t : Tracked} {l₀ : Ledger} {dropped₀ : List Text}
  {attempts : List Attempt}

theorem accounted_start (h : Starts toLowerCase e l₀ dropped₀) :
    Accounted toLowerCase (acceptedOf toLowerCase e) ⟨l₀.state, dropped₀⟩ where
  perm := h.holds
  filed := by
    refine ⟨?_, h.domain⟩
    have hp := h.holds.map toLowerCase
    rw [List.map_append] at hp
    exact (List.nodup_append.mp (hp.nodup_iff.mpr distinct_acceptedOf)).1

/-- **Step.** -/
theorem accounted_trackOp (h : Accounted toLowerCase accepted t)
    (hc : CleanOp toLowerCase t.state op) : Accounted toLowerCase accepted (trackOp toLowerCase t op) where
  perm := by
    have hstep := perm_applyOp h.filed.nodup hc
    have hall := h.perm
    unfold trackOp
    rw [List.perm_iff_count] at hstep hall ⊢
    intro r
    have h₁ := hstep r
    have h₂ := hall r
    simp only [List.count_append] at h₁ h₂ ⊢
    omega
  filed := wellFiled_applyOp h.filed hc

theorem conserved_of_accounted (hn : accepted.Nodup) (h : Accounted toLowerCase accepted t) :
    Conserved toLowerCase accepted t where
  once r hr hd := by
    have hcount := h.perm.count_eq r
    rw [List.count_append, List.count_eq_zero_of_not_mem hd, List.count_eq_one_of_mem hn hr] at hcount
    omega
  domain := h.filed.domain

theorem keepsEntries_of_clean (h : WellFiled toLowerCase state) (hc : CleanOp toLowerCase state op) :
    KeepsEntries toLowerCase state op := by
  intro key group hg r hr hd
  have hmem : r ∈ recipientsOf (applyOp toLowerCase state op) ++ droppedBy state op :=
    (perm_applyOp h.nodup hc).mem_iff.mpr (mem_recipientsOf.mpr ⟨key, group, hg, hr⟩)
  rcases List.mem_append.mp hmem with hmem | hmem
  · obtain ⟨key', group', hg', hr'⟩ := mem_recipientsOf.mp hmem
    obtain ⟨key₀, group₀, h₀, hfrom⟩ := comesFrom_applyOp hc hg'
    -- the entry it comes from is the only one that holds `r`
    have hsame := (entry_unique h.nodup h₀ hg (hfrom.recipients r hr') hr).2
    exact ⟨key', group', hg', hr', hsame ▸ hfrom.recipients⟩
  · exact absurd hmem hd

variable (toLowerCase) in
/-- No recipient is lost or duplicated after any step of the attempts. -/
def NeverLost (e : Envelope) (l₀ : Ledger) (dropped₀ : List Text) (attempts : List Attempt) : Prop :=
  (∀ ops, ops <+: historyOps toLowerCase e l₀ attempts →
    Conserved toLowerCase (acceptedOf toLowerCase e) (run (trackOp toLowerCase) ⟨l₀.state, dropped₀⟩ ops)) ∧
  Along (applyOp toLowerCase) (KeepsEntries toLowerCase) l₀.state (historyOps toLowerCase e l₀ attempts)

theorem along_trackOp {C : DeliveryState → StateOp → Prop} {ops : List StateOp}
    (h : Along (applyOp toLowerCase) C t.state ops) :
    Along (trackOp toLowerCase) (fun t op => C t.state op) t ops := by
  induction ops generalizing t with
  | nil => trivial
  | cons op ops ih => exact ⟨h.1, ih h.2⟩

/-- **No recipient is lost or duplicated**, as long as no re-filing assigns a key twice. -/
theorem neverLost_of_clean (h₀ : Starts toLowerCase e l₀ dropped₀)
    (hc : Along (applyOp toLowerCase) (CleanOp toLowerCase) l₀.state
      (historyOps toLowerCase e l₀ attempts)) :
    NeverLost toLowerCase e l₀ dropped₀ attempts := by
  have hstart := accounted_start h₀
  have hinv : ∀ ops, ops <+: historyOps toLowerCase e l₀ attempts →
      Accounted toLowerCase (acceptedOf toLowerCase e)
        (run (trackOp toLowerCase) ⟨l₀.state, dropped₀⟩ ops) := by
    rintro ops ⟨rest, hrest⟩
    rw [← hrest] at hc
    exact invariant (Accounted toLowerCase (acceptedOf toLowerCase e))
      (fun t op => accounted_trackOp) hstart (along_trackOp (along_append.mp hc).1)
  refine ⟨fun ops hp => conserved_of_accounted (distinct_acceptedOf.of_map _) (hinv ops hp), ?_⟩
  rw [along_iff_forall_concat] at hc ⊢
  intro ops op hp
  refine keepsEntries_of_clean ?_ (hc ops op hp)
  have hfiled := (hinv ops ((List.prefix_append ops [op]).trans hp)).filed
  rwa [state_run_trackOp] at hfiled

end Conservation

/-! ## A domain with a `#` -/

/-- A world whose MX lookups fail for now, so that every pending entry stays pending. -/
def lookupsDown : MailerEnv where
  dns _ :=
    { resolveMx := .error none, resolve4 := .ok [], resolve6 := .ok [], ties := fun _ => 0 }
  policy _ := none
  signed := .unsigned
  mintReturnPath _ _ _ _ := none
  bucketOf host := host
  hostInputs _ _ := ⟨.ok [], fun _ => ⟨none, fun _ => ⟨true, .resolved [] [], none⟩, 0⟩⟩
  recordedAt _ := 0

/-- An attempt with signed return paths, after which the row stays queued. -/
def signedAttempt (isSuppressed : Text → Bool) : Attempt where
  returnPath := some "msg_1"
  messageId := "<1@from.org>"
  env := lookupsDown
  isSuppressed := isSuppressed
  droppedAt := 0
  settles := false

/-- Two recipients of `a.b`, and one of the domain given. -/
def threeRecipients (domain : String) : Envelope where
  from_ := "s@from.org"
  to_ := "x@a.b,y@a.b,z@".toList ++ domain.toList
  cc := none
  bcc := none

/-- The ledger of a new row. -/
def newLedger (e : Envelope) : Ledger := ⟨buildInitialState id e.to_ e.cc e.bcc, false⟩

/-- Two signed attempts to well-behaved domains, the second after a suppression. -/
theorem neverLost_plainDomains :
    NeverLost id (threeRecipients "c.d") (newLedger (threeRecipients "c.d")) []
      [signedAttempt fun _ => false, signedAttempt (· = "y@a.b".toList)] :=
  neverLost_of_clean starts_new (by decide)

/-- The entry of `y@a.b` is split off under `a.b#1`, and the entry of the domain `a.b#1` is then
filed over it. -/
theorem not_neverLost_hashDomain :
    ¬ NeverLost id (threeRecipients "a.b#1") (newLedger (threeRecipients "a.b#1")) []
      [signedAttempt fun _ => false] := by
  intro h
  have honce := (h.1 _ List.prefix_rfl).once "y@a.b" (by decide) (by decide)
  revert honce
  decide

end BunMail.Emails
