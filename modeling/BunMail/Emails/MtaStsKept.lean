import BunMail.Emails.MtaStsCache

/-!
# A cached MTA-STS policy is kept

Whatever the TXT record says and the fetch answers, an unexpired policy of the cache stays in force, until
as many other domains as the cache's limit stored a policy.
-/

namespace BunMail.Emails.MtaStsCache

open Newest

/-! ## The cache and what was stored -/

section Cache

def Stored.entry (st : Stored) : CachedPolicy := ⟨st.id, st.policy, st.expiresAt⟩

def Stored.row (st : Stored) : Text × CachedPolicy := (st.name, st.entry)

/-- The cache holds what was stored, but for what expired and what had to go. -/
structure Holds (limit : ℕ) (cache : Cache) (stored : List Stored) (now : Time) : Prop where
  policies : Tracks limit (fun entry => entry.expiresAt ≤ now) (stored.map Stored.row) cache.policies.rows
  failures : cache.failures.rows.length ≤ limit

variable {limit : ℕ} {cache : Cache} {stored : List Stored} {now now' : Time} {name id : Text}
  {policy : MtaStsPolicy} {kind : FailureKind} {entry : CachedPolicy}

theorem holds_empty : Holds limit Cache.empty [] now := ⟨tracks_nil, Nat.zero_le _⟩

theorem Holds.later (h : Holds limit cache stored now) (hle : now ≤ now') :
    Holds limit cache stored now' := ⟨h.policies.mono fun _ hgone => hgone.trans hle, h.failures⟩

theorem Holds.get (h : Holds limit cache stored now) : Holds limit (cache.get name now).2 stored now := by
  unfold Cache.get
  cases hget : cache.policies.get? name with
  | none => exact h
  | some entry =>
    dsimp only
    split_ifs with hexpired
    · refine ⟨h.policies.filter fun row hrow hgone => ?_, h.failures⟩
      have hname : row.1 = name := by simpa using hgone
      have hsame : (name, entry) = row :=
        Table.eq_of_key_eq (Table.get?_eq_some_iff.mp hget) hrow hname.symm
      rw [← hsame]
      exact hexpired
    · exact h

theorem Holds.set (h : Holds limit cache stored now) :
    Holds limit (cache.set limit name id policy now) (stored ++ [⟨name, id, policy, now⟩]) now where
  policies := by
    rw [List.map_append]
    exact h.policies.set
  failures := (List.length_filter_le _ _).trans h.failures

theorem Holds.failed (h : Holds limit cache stored now) :
    Holds limit (cache.failed limit name id now kind) stored now := ⟨h.policies, length_set_le⟩

/-- The policy stored last is read while it is unexpired. -/
theorem Holds.get_eq (h : Holds limit cache stored now)
    (hlast : lastOf (stored.map Stored.row) name = some entry)
    (hfew : othersSince (stored.map Stored.row) name < limit) (hlive : now < entry.expiresAt) :
    (cache.get name now).1 = some entry := by
  have hmem : (name, entry) ∈ cache.policies.rows :=
    (h.policies.kept name entry hlast hfew).resolve_left (not_le.mpr hlive)
  unfold Cache.get
  rw [Table.get?_eq_some_iff.mpr hmem]
  dsimp only
  rw [if_neg (not_le.mpr hlive)]

/-- The other domains that stored a policy. -/
def others (name : Text) (stored : List Stored) : Finset Text :=
  ((stored.map Stored.name).filter (· ≠ name)).toFinset

/-- Behind a policy of a domain, one of it and of those after it is the last. -/
theorem exists_last {older newer : List Stored} {st : Stored} (hname : st.name = name) :
    ∃ st' ∈ st :: newer, st'.name = name ∧
      lastOf ((older ++ st :: newer).map Stored.row) name = some st'.entry ∧
      ((since ((older ++ st :: newer).map Stored.row) name).map Prod.fst).toFinset ⊆ others name newer := by
  induction newer using List.reverseRecOn with
  | nil =>
    subst hname
    refine ⟨st, List.mem_cons_self, rfl, ?_, ?_⟩
    · rw [List.map_append]
      exact lastOf_concat_self
    · rw [List.map_append]
      show ((since (older.map Stored.row ++ [(st.name, st.entry)]) st.name).map Prod.fst).toFinset ⊆ _
      rw [since_concat_self]
      exact Finset.empty_subset _
  | append_singleton newer x ih =>
    obtain ⟨st', hst', hname', hlast, hsince⟩ := ih
    have hrows : (older ++ st :: (newer ++ [x])).map Stored.row =
        (older ++ st :: newer).map Stored.row ++ [(x.name, x.entry)] := by
      rw [← List.cons_append, ← List.append_assoc, List.map_append]
      rfl
    rw [hrows]
    by_cases hx : name = x.name
    · subst hx
      refine ⟨x, by simp, rfl, lastOf_concat_self, ?_⟩
      rw [since_concat_self]
      exact Finset.empty_subset _
    · refine ⟨st', ?_, hname', (lastOf_concat_ne hx).trans hlast, ?_⟩
      · rw [← List.cons_append]
        exact List.mem_append_left _ hst'
      · rw [since_concat_ne hx, List.map_append, List.toFinset_append]
        have hother : others name (newer ++ [x]) = others name newer ∪ {x.name} := by
          unfold others
          rw [List.map_append, List.filter_append, List.toFinset_append]
          simp [Ne.symm hx]
        rw [hother]
        exact Finset.union_subset_union hsince (by simp)

end Cache

/-! ## The discoveries -/

section Discoveries

variable {toLowerCase : Text → Text} {limit : ℕ} {s : Discoveries} {name id : Text} {read : Read}

/-- What the read gave. -/
def Read.cached (read : Read) (name : Text) : Option CachedPolicy := (read.cache.get name read.readAt).1

def Read.kept (read : Read) (name : Text) : Option ActiveMtaStsPolicy :=
  (read.cached name).map CachedPolicy.active

/-- The answer is the policy of the cache, or one the discovery fetched. -/
def Answer.Found (a : Answer) : Prop :=
  a.discovery.policy = a.read.kept a.name ∨ ∃ p, a.fetched = some p ∧ a.discovery.policy = some p

def Read.Holds (limit : ℕ) (read : Read) : Prop :=
  MtaStsCache.Holds limit read.cache read.seen read.readAt

/-- Every discovery read a cache that held what was stored, and keeps what it read. -/
structure Inv (limit : ℕ) (s : Discoveries) : Prop where
  holds : MtaStsCache.Holds limit s.cache s.stored s.now
  waiting : ∀ name id kept read, s.inFlight.get? name = some (.fetch id kept read) →
    read.Holds limit ∧ kept = read.kept name
  answered : ∀ a ∈ s.answers, a.read.Holds limit ∧ a.Found

theorem Inv.put (h : Inv limit s) {phase : Phase} (hphase : ∀ id kept read, phase = .fetch id kept read →
      read.Holds limit ∧ kept = read.kept name) :
    Inv limit { s with inFlight := s.inFlight.put name phase } where
  holds := h.holds
  waiting := fun other id kept read hget => by
    dsimp only at hget
    rw [Table.get?_put] at hget
    split_ifs at hget with heq
    · subst heq
      exact hphase id kept read (Option.some.inj hget)
    · exact h.waiting other id kept read hget
  answered := h.answered

theorem Inv.answer (h : Inv limit s) {a : Answer} (hread : a.read.Holds limit) (hfound : a.Found) :
    Inv limit (s.answer a) := by
  have hput : Inv limit { s with inFlight := s.inFlight.put a.name .settled } :=
    h.put fun _ _ _ hphase => nomatch hphase
  refine ⟨hput.holds, hput.waiting, fun b hb => ?_⟩
  rcases List.mem_append.mp hb with hb | hb
  · exact h.answered b hb
  · rw [List.mem_singleton.mp hb]
    exact ⟨hread, hfound⟩

theorem Inv.withCache (h : Inv limit s) {cache : Cache} {stored : List Stored}
    (hcache : MtaStsCache.Holds limit cache stored s.now) : Inv limit { s with cache, stored } :=
  ⟨hcache, h.waiting, h.answered⟩

/-- What a discovery keeps is what it read. -/
theorem afterTxt_spec (cache : Cache) (name : Text) (txt : TxtAnswer) (now : Time) :
    (afterTxt cache name txt now).2 = (cache.get name now).2 ∧
      ((∃ discovery, (afterTxt cache name txt now).1 = .inl discovery ∧
          discovery.policy = (cache.get name now).1.map CachedPolicy.active) ∨
        ∃ id, (afterTxt cache name txt now).1 = .inr (id, (cache.get name now).1.map CachedPolicy.active)) := by
  unfold afterTxt
  dsimp only
  cases txt with
  | error code => exact ⟨rfl, .inl ⟨_, rfl, rfl⟩⟩
  | none => exact ⟨rfl, .inl ⟨_, rfl, rfl⟩⟩
  | id id =>
    dsimp only
    split_ifs with hsame
    · exact ⟨rfl, .inl ⟨_, rfl, rfl⟩⟩
    · cases hrecent : (cache.get name now).2.recentFailure name id now with
      | some recent => exact ⟨rfl, .inl ⟨_, rfl, rfl⟩⟩
      | none => exact ⟨rfl, .inr ⟨id, rfl⟩⟩

theorem Inv.onTxt (h : Inv limit s) (name : Text) (txt : TxtAnswer) : Inv limit (s.onTxt name txt) := by
  obtain ⟨hcache, hresult⟩ := afterTxt_spec s.cache name txt s.now
  have hread : Read.Holds limit ⟨s.now, s.stored, s.cache⟩ := h.holds
  unfold Discoveries.onTxt
  generalize hafter : afterTxt s.cache name txt s.now = after at hcache hresult
  obtain ⟨result, cache⟩ := after
  dsimp only at hcache hresult ⊢
  subst hcache
  have hheld : Inv limit { s with cache := (s.cache.get name s.now).2 } := h.withCache h.holds.get
  rcases hresult with ⟨discovery, rfl, hpolicy⟩ | ⟨id, rfl⟩
  · exact hheld.answer hread (.inl hpolicy)
  · refine hheld.put fun _ _ _ hphase => ?_
    obtain ⟨rfl, rfl, rfl⟩ := Phase.fetch.inj hphase
    exact ⟨hread, rfl⟩

theorem Inv.onFetched (h : Inv limit s) {kept : Option ActiveMtaStsPolicy} (hwait : read.Holds limit ∧ kept = read.kept name)
    (outcome : Except FailureKind MtaStsPolicy) : Inv limit (s.onFetched limit name id kept read outcome) := by
  cases outcome with
  | ok policy => exact (h.withCache h.holds.set).answer hwait.1 (.inr ⟨_, rfl, rfl⟩)
  | error failure => exact (h.withCache h.holds.failed).answer hwait.1 (.inl hwait.2)

theorem Inv.step (h : Inv limit s) (e : Event) : Inv limit (s.step toLowerCase limit e) := by
  cases e with
  | tick ms => exact ⟨h.holds.later (Nat.le_add_right _ _), h.waiting, h.answered⟩
  | call domain =>
    unfold Discoveries.step
    dsimp only
    cases s.inFlight.get? (nameOf toLowerCase domain) with
    | some phase => exact h
    | none => exact h.put fun _ _ _ hphase => nomatch hphase
  | txt name answer =>
    unfold Discoveries.step
    dsimp only
    split
    · exact h.onTxt name _
    · exact h
  | fetched name outcome =>
    unfold Discoveries.step
    dsimp only
    split
    · rename_i hphase
      exact h.onFetched (h.waiting _ _ _ _ hphase) outcome
    · exact h
  | settle name =>
    unfold Discoveries.step
    dsimp only
    split
    · refine ⟨h.holds, fun other id kept read hget => ?_, h.answered⟩
      dsimp only at hget
      rw [Table.get?_deleteWhere] at hget
      exact h.waiting other id kept read (Option.filter_eq_some_iff.mp hget).1
    · exact h

theorem inv_init : Inv limit Discoveries.init where
  holds := holds_empty
  waiting := fun _ _ _ _ hget => nomatch hget
  answered := fun _ ha => absurd ha List.not_mem_nil

/-! ## What is returned -/

/-- The answer is a policy, and it is `st`, one of the domain stored after it, or one the discovery
fetched. -/
def Answer.From (a : Answer) (st : Stored) (newer : List Stored) : Prop :=
  ∃ p, a.discovery.policy = some p ∧
    (p = st.active ∨ (∃ later ∈ newer, later.name = a.name ∧ p = later.active) ∨ a.fetched = some p)

/-- **No downgrade**: a discovery that reads the cache before a stored policy expires returns it or a
later one, unless a later one has expired or `limit` other domains stored a policy since. -/
def Resistant (limit : ℕ) (s : Discoveries) : Prop :=
  ∀ a ∈ s.answers, ∀ older st newer, a.read.seen = older ++ st :: newer → st.name = a.name →
    a.read.readAt < st.expiresAt →
    (∀ later ∈ newer, later.name = a.name → a.read.readAt < later.expiresAt) →
    (others a.name newer).card < limit → a.From st newer

theorem Inv.resistant (h : Inv limit s) : Resistant limit s := by
  intro a ha older st newer hseen hname hlive hlater hfew
  obtain ⟨hread, hfound⟩ := h.answered a ha
  obtain ⟨st', hst', hname', hlast, hsince⟩ := @exists_last a.name older newer st hname
  have hlive' : a.read.readAt < st'.entry.expiresAt := by
    rcases List.mem_cons.mp hst' with rfl | hst'
    · exact hlive
    · exact hlater st' hst' hname'
  have hcached : a.read.cached a.name = some st'.entry := by
    rw [← hseen] at hlast hsince
    exact MtaStsCache.Holds.get_eq hread hlast ((Finset.card_le_card hsince).trans_lt hfew) hlive'
  rcases hfound with hkept | ⟨p, hp, hpolicy⟩
  · refine ⟨st'.active, ?_, ?_⟩
    · rw [hkept, Read.kept, hcached]
      rfl
    · rcases List.mem_cons.mp hst' with rfl | hst'
      · exact .inl rfl
      · exact .inr (.inl ⟨st', hst', hname', rfl⟩)
  · exact ⟨p, hpolicy, .inr (.inr hp)⟩

/-- An unexpired policy in the cache that a discovery reads is not lost to a failure in it. -/
def Steady (s : Discoveries) : Prop :=
  ∀ a ∈ s.answers, ∀ entry, a.read.cache.policies.get? a.name = some entry →
    a.read.readAt < entry.expiresAt → a.discovery.policy ≠ none

theorem Inv.steady (h : Inv limit s) : Steady s := by
  intro a ha entry hentry hlive hnone
  have hcached : a.read.cached a.name = some entry := by
    unfold Read.cached Cache.get
    rw [hentry]
    dsimp only
    rw [if_neg (not_le.mpr hlive)]
  rcases (h.answered a ha).2 with hkept | ⟨p, -, hpolicy⟩
  · rw [Read.kept, hcached, hnone] at hkept
    exact absurd hkept (by simp)
  · rw [hnone] at hpolicy
    exact absurd hpolicy (by simp)

/-- **Every run of discoveries resists a downgrade**, in a bounded cache. -/
theorem downgrade_resistance (toLowerCase : Text → Text) (limit : ℕ) (events : List Event) :
    Resistant limit (Run.run (Discoveries.step toLowerCase limit) Discoveries.init events) ∧
      Steady (Run.run (Discoveries.step toLowerCase limit) Discoveries.init events) ∧
      (Run.run (Discoveries.step toLowerCase limit) Discoveries.init events).cache.policies.rows.length ≤
        limit ∧
      (Run.run (Discoveries.step toLowerCase limit) Discoveries.init events).cache.failures.rows.length ≤
        limit := by
  have hinv : Inv limit (Run.run (Discoveries.step toLowerCase limit) Discoveries.init events) :=
    Run.foldl_invariant (Inv limit) (fun _ e h => h.step e) inv_init events
  exact ⟨hinv.resistant, hinv.steady, hinv.holds.policies.bounded, hinv.holds.failures⟩

/-! ## Where a policy goes before its time -/

/-- An answer that is neither a stored and unexpired policy nor a later one, with at most `limit` other
domains that stored one since. -/
def Downgraded (limit : ℕ) (s : Discoveries) : Prop :=
  ∃ a ∈ s.answers, ∃ older st newer, a.read.seen = older ++ st :: newer ∧ st.name = a.name ∧
    a.read.readAt < st.expiresAt ∧ (others a.name newer).card ≤ limit ∧ ¬ a.From st newer

theorem not_from_of_none {a : Answer} {st : Stored} {newer : List Stored} (h : a.discovery.policy = none) :
    ¬ a.From st newer := by
  rintro ⟨p, hp, -⟩
  rw [h] at hp
  exact absurd hp (by simp)

/-- A discovery of a domain that fetches and stores a policy. -/
def stores (domain id : String) (maxAge : ℕ) : List Event :=
  [.call domain, .txt domain (.ok [["v=STSv1; id=".toList ++ id.toList ++ [';']]]),
    .fetched domain (.ok ⟨.enforce, ["mx.example.net"], maxAge⟩), .settle domain]

/-- A policy for a day, replaced by one for a minute. -/
def replaced : List Event :=
  stores "a.example" "1" 86400 ++ stores "a.example" "2" 60 ++
    [.tick 60000, .call "a.example", .txt "a.example" (.error (some "ESERVFAIL"))]

/-- A cache of one policy, and two domains. -/
def crowded : List Event :=
  stores "a.example" "1" 86400 ++ stores "b.example" "1" 86400 ++
    [.call "a.example", .txt "a.example" (.error (some "ESERVFAIL"))]

/-- **Two ways out of the cache**: a later policy of the domain that expires first, and as many other
domains as the limit. -/
theorem downgraded_replaced_crowded :
    Downgraded MTA_STS_CACHE_LIMIT
        (Run.run (Discoveries.step Text.asciiLower MTA_STS_CACHE_LIMIT) Discoveries.init replaced) ∧
      Downgraded 1 (Run.run (Discoveries.step Text.asciiLower 1) Discoveries.init crowded) := by
  constructor
  · refine ⟨(Run.run (Discoveries.step Text.asciiLower MTA_STS_CACHE_LIMIT) Discoveries.init
      replaced).answers.get ⟨2, by decide +kernel⟩, List.get_mem _ _, [],
      ⟨"a.example", "1", ⟨.enforce, ["mx.example.net"], 86400⟩, 0⟩,
      [⟨"a.example", "2", ⟨.enforce, ["mx.example.net"], 60⟩, 0⟩], ?_⟩
    exact ⟨by decide +kernel, by decide +kernel, by decide +kernel, by decide +kernel,
      not_from_of_none (by decide +kernel)⟩
  · refine ⟨(Run.run (Discoveries.step Text.asciiLower 1) Discoveries.init crowded).answers.get
      ⟨2, by decide +kernel⟩, List.get_mem _ _, [],
      ⟨"a.example", "1", ⟨.enforce, ["mx.example.net"], 86400⟩, 0⟩,
      [⟨"b.example", "1", ⟨.enforce, ["mx.example.net"], 86400⟩, 0⟩], ?_⟩
    exact ⟨by decide +kernel, by decide +kernel, by decide +kernel, by decide +kernel,
      not_from_of_none (by decide +kernel)⟩

end Discoveries

end BunMail.Emails.MtaStsCache
