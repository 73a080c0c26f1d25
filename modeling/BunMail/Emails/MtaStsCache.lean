import BunMail.Emails.MtaSts
import BunMail.Emails.MtaStsTxt
import BunMail.Lib.Newest
import BunMail.Lib.Run

/-!
# MTA-STS discovery

`MtaStsPolicyCache` of `mta-sts-cache.ts`, and `discoverMtaSts` of `mta-sts.ts` cut at its two awaits: the
TXT lookup and the fetch.  The answers of both are data of the step that resumes the discovery.
-/

namespace BunMail.Emails.MtaStsCache

def MTA_STS_CACHE_LIMIT : ℕ := 10000

def MTA_STS_FETCH_RETRY_AFTER_MS : ℕ := 5 * 60000

/-- `MtaStsFailureKind`. -/
inductive FailureKind
  | fetchError | webpkiInvalid | policyInvalid
  deriving DecidableEq

/-! ## The cache -/

/-- A cached policy, without the mailer's `warned`. -/
structure CachedPolicy where
  id : Text
  policy : MtaStsPolicy
  expiresAt : Time
  deriving DecidableEq

structure FailedFetch where
  id : Text
  retryAt : Time
  kind : FailureKind

/-- `{ id: cached.id, policy: cached.policy }`. -/
def CachedPolicy.active (entry : CachedPolicy) : ActiveMtaStsPolicy := ⟨entry.id, entry.policy⟩

structure Cache where
  policies : Table (Prod.fst : Text × CachedPolicy → Text)
  failures : Table (Prod.fst : Text × FailedFetch → Text)

namespace Cache

def empty : Cache := ⟨Table.empty, Table.empty⟩

/-- An expired policy is dropped. -/
def get (cache : Cache) (domain : Text) (now : Time) : Option CachedPolicy × Cache :=
  match cache.policies.get? domain with
  | none => (none, cache)
  | some entry =>
    if entry.expiresAt ≤ now then (none, { cache with policies := cache.policies.deleteWhere (·.1 = domain) })
    else (some entry, cache)

variable (limit : ℕ)

def set (cache : Cache) (domain id : Text) (policy : MtaStsPolicy) (now : Time) : Cache where
  failures := cache.failures.deleteWhere (·.1 = domain)
  policies := Newest.set limit cache.policies domain ⟨id, policy, now + policy.maxAge * 1000⟩

def failed (cache : Cache) (domain id : Text) (now : Time) (kind : FailureKind) : Cache :=
  { cache with
    failures := Newest.set limit cache.failures domain ⟨id, now + MTA_STS_FETCH_RETRY_AFTER_MS, kind⟩ }

def recentFailure (cache : Cache) (domain id : Text) (now : Time) : Option FailureKind :=
  match cache.failures.get? domain with
  | none => none
  | some failure => if failure.id = id ∧ now < failure.retryAt then some failure.kind else none

end Cache

/-! ## A discovery -/

def NO_RECORDS : List Text := ["ENOTFOUND", "ENODATA"].map String.toList

inductive TxtAnswer
  | id (id : Text)
  | none
  | error (code : Text)

/-- What the lookup resolves to, or the `code` of its error, where that is a text. -/
def lookupTxt : Except (Option Text) (List (List Text)) → TxtAnswer
  | .ok records =>
    match parseMtaStsTxt records with
    | none => .none
    | some id => .id id
  | .error (some code) => if code ∈ NO_RECORDS then .none else .error code
  | .error none => .error "unknown error"

structure MtaStsDiscovery where
  policy : Option ActiveMtaStsPolicy
  failure : Option FailureKind

/-- Up to the fetch: an answer, or the `id` to fetch and the policy kept. -/
def afterTxt (cache : Cache) (domain : Text) (txt : TxtAnswer) (now : Time) :
    (MtaStsDiscovery ⊕ Text × Option ActiveMtaStsPolicy) × Cache :=
  let (cached, cache) := cache.get domain now
  let kept := cached.map CachedPolicy.active
  match txt with
  | .error _ => (.inl ⟨kept, none⟩, cache)
  | .none => (.inl ⟨kept, none⟩, cache)
  | .id id =>
    if cached.map CachedPolicy.id = some id then (.inl ⟨kept, none⟩, cache)
    else
      match cache.recentFailure domain id now with
      | some recent => (.inl ⟨kept, some recent⟩, cache)
      | none => (.inr (id, kept), cache)

/-- From the fetch on. -/
def afterFetch (limit : ℕ) (cache : Cache) (domain id : Text) (kept : Option ActiveMtaStsPolicy)
    (outcome : Except FailureKind MtaStsPolicy) (now : Time) : MtaStsDiscovery × Cache :=
  match outcome with
  | .ok policy => (⟨some ⟨id, policy⟩, none⟩, cache.set limit domain id policy now)
  | .error failure => (⟨kept, some failure⟩, cache.failed limit domain id now failure)

/-! ## Discoveries that share a cache -/

/-- A policy that was fetched and stored. -/
structure Stored where
  name : Text
  id : Text
  policy : MtaStsPolicy
  storedAt : Time
  deriving DecidableEq

def Stored.expiresAt (st : Stored) : Time := st.storedAt + st.policy.maxAge * 1000

def Stored.active (st : Stored) : ActiveMtaStsPolicy := ⟨st.id, st.policy⟩

/-- The read of the cache: when, what was stored before, and the cache. -/
structure Read where
  readAt : Time
  seen : List Stored
  cache : Cache

/-- Where a discovery waits. -/
inductive Phase
  | lookup
  | fetch (id : Text) (kept : Option ActiveMtaStsPolicy) (read : Read)
  | settled

/-- The end of a discovery: what it read, what it fetched, what it found. -/
structure Answer where
  name : Text
  read : Read
  fetched : Option ActiveMtaStsPolicy
  discovery : MtaStsDiscovery

/-- The cache, the discoveries in flight and the clock, with what was stored and answered so far. -/
structure Discoveries where
  cache : Cache
  inFlight : Table (Prod.fst : Text × Phase → Text)
  now : Time
  stored : List Stored
  answers : List Answer

def Discoveries.init : Discoveries := ⟨Cache.empty, Table.empty, 0, [], []⟩

inductive Event
  | tick (ms : ℕ)
  /-- A call: it waits for the discovery in flight, or starts one. -/
  | call (domain : Text)
  | txt (name : Text) (answer : Except (Option Text) (List (List Text)))
  | fetched (name : Text) (outcome : Except FailureKind MtaStsPolicy)
  /-- `finally`. -/
  | settle (name : Text)

section Step

variable (toLowerCase : Text → Text) (limit : ℕ)

def nameOf (domain : Text) : Text := withoutTrailingDot (toLowerCase (Text.trim domain))

namespace Discoveries

def answer (s : Discoveries) (a : Answer) : Discoveries :=
  { s with inFlight := s.inFlight.put a.name .settled, answers := s.answers ++ [a] }

def onTxt (s : Discoveries) (name : Text) (txt : TxtAnswer) : Discoveries :=
  let read : Read := ⟨s.now, s.stored, s.cache⟩
  match afterTxt s.cache name txt s.now with
  | (.inl discovery, cache) => ({ s with cache } : Discoveries).answer ⟨name, read, none, discovery⟩
  | (.inr (id, kept), cache) => { s with cache, inFlight := s.inFlight.put name (.fetch id kept read) }

def onFetched (s : Discoveries) (name id : Text) (kept : Option ActiveMtaStsPolicy) (read : Read)
    (outcome : Except FailureKind MtaStsPolicy) : Discoveries :=
  let (discovery, cache) := afterFetch limit s.cache name id kept outcome s.now
  match outcome with
  | .ok policy =>
    ({ s with cache, stored := s.stored ++ [⟨name, id, policy, s.now⟩] } : Discoveries).answer
      ⟨name, read, some ⟨id, policy⟩, discovery⟩
  | .error _ => ({ s with cache } : Discoveries).answer ⟨name, read, none, discovery⟩

def step (s : Discoveries) : Event → Discoveries
  | .tick ms => { s with now := s.now + ms }
  | .call domain =>
    let name := nameOf toLowerCase domain
    match s.inFlight.get? name with
    | some _ => s
    | none => { s with inFlight := s.inFlight.put name .lookup }
  | .txt name answer =>
    match s.inFlight.get? name with
    | some .lookup => s.onTxt name (lookupTxt answer)
    | _ => s
  | .fetched name outcome =>
    match s.inFlight.get? name with
    | some (.fetch id kept read) => s.onFetched limit name id kept read outcome
    | _ => s
  | .settle name =>
    match s.inFlight.get? name with
    | some .settled => { s with inFlight := s.inFlight.deleteWhere (·.1 = name) }
    | _ => s

end Discoveries

end Step

end BunMail.Emails.MtaStsCache
