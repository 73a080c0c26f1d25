import BunMail.Lib.History
import BunMail.Users.Schema
import BunMail.Users.Session

/-!
# The chain of a session's tokens

A session, as its history tells it: the tokens it had, one superseding the other, its level, and when it
was last active.  A token is its hash; none is minted twice.  `Event.Allowed` says what may come next: a
rotation supersedes the current token; a request is admitted with the current token or, for a short
while, with the one before it; and a superseded token of a session that has not expired raises the alarm.
-/

namespace BunMail.Users.Guard

open History

/-! ## Events -/

/-- What the guard reads of an account: `users`, and its `hasSecondFactor`. -/
structure Account where
  id : Text
  role : UserRole
  disabled : Bool
  secondFactor : Bool
  deriving DecidableEq

/-- Which lookup has recognized a superseded token. -/
inductive Detection
  /-- `findActiveSession`: the previous token, after the grace period. -/
  | previous
  /-- `findSessionBySupersededToken`. -/
  | history
  deriving DecidableEq, Repr

/-- What the tables tell, once it is committed, and how the requests were judged. -/
inductive Event
  | opened (input : NewSession) (at' : Time)
  /-- The call, its session, the token before and after. -/
  | rotated (t : ℕ) (id old new : Text) (at' : Time)
  | elevated (id new : Text) (at' : Time)
  | raised (id : Text)
  | ended (id : Text)
  /-- The guard lets the request pass. -/
  | admitted (t : ℕ) (token id : Text) (account : Account) (at' : Time)
  /-- A superseded token: two parties hold the session. -/
  | alarmed (t : ℕ) (token id userId : Text) (how : Detection) (at' : Time)
  /-- Both lookups have found nothing. -/
  | turnedAway (t : ℕ) (token : Text) (at' : Time)
  deriving DecidableEq

/-- The token an event mints, and its session. -/
def Event.mints : Event → Option (Text × Text)
  | .opened input _ => some (input.id, input.tokenHash)
  | .rotated _ id _ new _ | .elevated id new _ => some (id, new)
  | .raised _ | .ended _ | .admitted _ _ _ _ _ | .alarmed _ _ _ _ _ _ | .turnedAway _ _ _ => none

/-- The session an event opens. -/
def Event.opens : Event → Option Text
  | .opened input _ => some input.id
  | .rotated _ _ _ _ _ | .elevated _ _ _ | .raised _ | .ended _ | .admitted _ _ _ _ _
  | .alarmed _ _ _ _ _ _ | .turnedAway _ _ _ => none

/-- The tokens there were so far. -/
def tokens (log : List Event) : List Text := (log.filterMap Event.mints).map Prod.snd

/-- The sessions there were so far. -/
def opened (log : List Event) : List Text := log.filterMap Event.opens

/-! ## Chains -/

/-- A session that has not ended. -/
structure Chain where
  userId : Text
  level : SessionAssurance
  current : Text
  /-- The tokens before the current one, the last first, and when each was superseded. -/
  superseded : List (Text × Time)
  openedAt : Time
  activeAt : Time

namespace Chain

/-- A session at its start. -/
def start (input : NewSession) (at' : Time) : Chain where
  userId := input.userId
  level := input.assurance
  current := input.tokenHash
  superseded := []
  openedAt := at'
  activeAt := at'

variable (c : Chain)

def rotate (new : Text) (at' : Time) : Chain :=
  { c with current := new, superseded := (c.current, at') :: c.superseded, activeAt := at' }

/-- The token of a pending session is dropped. -/
def elevate (new : Text) (at' : Time) : Chain := { c with level := .mfa, current := new, activeAt := at' }

def raise : Chain := { c with level := .mfa }

/-- Ten minutes for a pending session; else a day without activity, and a week at most. -/
def expiry : Time :=
  if c.level = .pending then c.openedAt + seconds SESSION_PENDING_SECONDS
  else min (c.activeAt + seconds SESSION_IDLE_SECONDS) (c.openedAt + seconds SESSION_ABSOLUTE_SECONDS)

/-- The current token and those it supersedes. -/
def tokens : List Text := c.current :: c.superseded.map Prod.fst

/-- The session admits the token. -/
structure Admits (token : Text) (account : Account) (at' : Time) : Prop where
  owner : account.id = c.userId
  enabled : account.disabled = false
  level : c.level = .mfa ∨ c.level = .password ∧ account.secondFactor = false
  unexpired : at' < c.expiry
  recent : token = c.current ∨
    ∃ since, c.superseded.head? = some (token, since) ∧ at' ≤ since + seconds SESSION_ROTATION_GRACE_SECONDS

/-- The session tells that the token was superseded. -/
structure Recognizes (token : Text) (how : Detection) (at' : Time) : Prop where
  unexpired : at' < c.expiry
  superseded : ∃ since, (token, since) ∈ c.superseded
  late : how = .previous →
    ∃ since, c.superseded.head? = some (token, since) ∧ since + seconds SESSION_ROTATION_GRACE_SECONDS < at'

end Chain

/-- What an event makes of the session `id`. -/
def Event.onChain (id : Text) : Option Chain → Event → Option Chain
  | none, .opened input at' => if input.id = id then some (.start input at') else none
  | some c, .rotated _ id' _ new at' => some (if id' = id then c.rotate new at' else c)
  | some c, .elevated id' new at' => some (if id' = id then c.elevate new at' else c)
  | some c, .raised id' => some (if id' = id then c.raise else c)
  | some c, .ended id' => if id' = id then none else some c
  | chain, _ => chain

/-- The session `id` after the log. -/
def chainOf (log : List Event) (id : Text) : Option Chain := log.foldl (Event.onChain id) none

/-- What may come after the log. -/
def Event.Allowed (log : List Event) : Event → Prop
  | .opened input _ => input.id ∉ Guard.opened log ∧ input.tokenHash ∉ tokens log
  | .rotated _ id old new at' => new ∉ tokens log ∧ ∃ c, chainOf log id = some c ∧ c.current = old ∧
    c.level ≠ .pending ∧ at' < c.expiry ∧ c.activeAt + seconds SESSION_ROTATE_SECONDS < at'
  | .elevated id new at' => new ∉ tokens log ∧ ∃ c, chainOf log id = some c ∧ c.level = .pending ∧ at' < c.expiry
  | .raised id => ∃ c, chainOf log id = some c ∧ c.level ≠ .pending
  | .ended id => ∃ c, chainOf log id = some c
  | .admitted _ token id account at' => ∃ c, chainOf log id = some c ∧ c.Admits token account at'
  | .alarmed _ token id userId how at' => ∃ c, chainOf log id = some c ∧ c.userId = userId ∧
    c.Recognizes token how at'
  | .turnedAway _ token at' => ∀ id c since, chainOf log id = some c → (token, since) ∈ c.superseded →
    c.expiry ≤ at'

section Log

variable {log : List Event} {e : Event} {id x : Text} {c : Chain}

@[simp] theorem chainOf_concat (log : List Event) (e : Event) (id : Text) :
    chainOf (log ++ [e]) id = e.onChain id (chainOf log id) := List.foldl_concat ..

@[simp] theorem tokens_concat (log : List Event) (e : Event) :
    tokens (log ++ [e]) = tokens log ++ (e.mints.map Prod.snd).toList := by
  unfold tokens
  rw [List.filterMap_append, List.map_append]
  cases h : e.mints <;> simp [h]

@[simp] theorem opened_concat (log : List Event) (e : Event) :
    opened (log ++ [e]) = opened log ++ e.opens.toList := by
  unfold opened
  rw [List.filterMap_append]
  cases h : e.opens <;> simp [h]

/-! ## What an event does to a session -/

/-- Everything an allowed event can do to a session. -/
inductive Moves (log : List Event) (id : Text) (chain : Option Chain) : Event → Option Chain → Prop
  | starts (input : NewSession) (at' : Time) (hid : input.id = id) (h : chain = none)
      (hid' : id ∉ opened log) (htoken : input.tokenHash ∉ tokens log) :
      Moves log id chain (.opened input at') (some (.start input at'))
  | rotates (t : ℕ) (c : Chain) (new : Text) (at' : Time) (h : chain = some c) (hnew : new ∉ tokens log)
      (hlevel : c.level ≠ .pending) : Moves log id chain (.rotated t id c.current new at') (some (c.rotate new at'))
  | elevates (c : Chain) (new : Text) (at' : Time) (h : chain = some c) (hnew : new ∉ tokens log)
      (hlevel : c.level = .pending) : Moves log id chain (.elevated id new at') (some (c.elevate new at'))
  | raises (c : Chain) (h : chain = some c) (hlevel : c.level ≠ .pending) :
      Moves log id chain (.raised id) (some c.raise)
  | ends (c : Chain) (h : chain = some c) : Moves log id chain (.ended id) none
  | stays (e : Event) : Moves log id chain e chain

/-- A session was opened. -/
theorem mem_opened_of_chainOf (h : chainOf log id = some c) : id ∈ opened log := by
  induction log using List.reverseRecOn generalizing c with
  | nil => cases h
  | append_singleton log e ih =>
    rw [chainOf_concat] at h
    rw [opened_concat, List.mem_append]
    cases hc : chainOf log id with
    | some c' => exact .inl (ih hc)
    | none =>
      rw [hc] at h
      unfold Event.onChain at h
      cases e with
      | opened input at' =>
        dsimp only at h
        split_ifs at h with hid
        subst hid
        exact .inr (List.mem_singleton_self _)
      | _ => cases h

theorem moves (h : e.Allowed log) (id : Text) : Moves log id (chainOf log id) e (e.onChain id (chainOf log id)) := by
  cases e with
  | opened input at' =>
    obtain ⟨hid, htoken⟩ := h
    cases hc : chainOf log id with
    | some c => exact .stays _
    | none =>
      unfold Event.onChain
      dsimp only
      split_ifs with hsame
      · subst hsame
        exact .starts input at' rfl rfl hid htoken
      · exact .stays _
  | rotated t id' old new at' =>
    obtain ⟨hnew, c, hc, rfl, hlevel, -⟩ := h
    by_cases hsame : id' = id
    · subst hsame
      rw [hc]
      unfold Event.onChain
      dsimp only
      rw [if_pos rfl]
      exact .rotates t c new at' rfl hnew hlevel
    · cases hc' : chainOf log id <;> simpa [Event.onChain, hsame] using Moves.stays _
  | elevated id' new at' =>
    obtain ⟨hnew, c, hc, hlevel, -⟩ := h
    by_cases hsame : id' = id
    · subst hsame
      rw [hc]
      unfold Event.onChain
      dsimp only
      rw [if_pos rfl]
      exact .elevates c new at' rfl hnew hlevel
    · cases hc' : chainOf log id <;> simpa [Event.onChain, hsame] using Moves.stays _
  | raised id' =>
    obtain ⟨c, hc, hlevel⟩ := h
    by_cases hsame : id' = id
    · subst hsame
      rw [hc]
      unfold Event.onChain
      dsimp only
      rw [if_pos rfl]
      exact .raises c rfl hlevel
    · cases hc' : chainOf log id <;> simpa [Event.onChain, hsame] using Moves.stays _
  | ended id' =>
    obtain ⟨c, hc⟩ := h
    by_cases hsame : id' = id
    · subst hsame
      rw [hc]
      unfold Event.onChain
      dsimp only
      rw [if_pos rfl]
      exact .ends c rfl
    · cases hc' : chainOf log id <;> simpa [Event.onChain, hsame] using Moves.stays _
  | admitted t token id' account at' => cases hc : chainOf log id <;> exact .stays _
  | alarmed t token id' userId how at' => cases hc : chainOf log id <;> exact .stays _
  | turnedAway t token at' => cases hc : chainOf log id <;> exact .stays _

theorem mem_tokens_concat (h : x ∈ tokens log) (e : Event) : x ∈ tokens (log ++ [e]) := by
  rw [tokens_concat]
  exact List.mem_append_left _ h

/-- The tokens of a session were its own before, or are minted for it now. -/
theorem Moves.tokens {chain : Option Chain} {c' : Chain} (h : Moves log id chain e (some c')) (hx : x ∈ c'.tokens) :
    (∃ c, chain = some c ∧ x ∈ c.tokens) ∨ e.mints = some (id, x) ∧ x ∉ Guard.tokens log := by
  cases h with
  | starts input at' hid _ _ htoken =>
    obtain rfl : x = input.tokenHash := List.mem_singleton.mp hx
    exact .inr ⟨by rw [← hid]; rfl, htoken⟩
  | rotates t c new at' hc hnew =>
    rcases List.mem_cons.mp hx with rfl | hold
    · exact .inr ⟨rfl, hnew⟩
    · exact .inl ⟨c, hc, hold⟩
  | elevates c new at' hc hnew =>
    rcases List.mem_cons.mp hx with rfl | hold
    · exact .inr ⟨rfl, hnew⟩
    · exact .inl ⟨c, hc, List.mem_cons_of_mem _ hold⟩
  | raises c hc => exact .inl ⟨c, hc, hx⟩
  | stays => exact .inl ⟨c', rfl, hx⟩

/-- What a session has superseded it had superseded before, or supersedes now. -/
theorem Moves.superseded {chain : Option Chain} {c' : Chain} {since : Time} (h : Moves log id chain e (some c'))
    (hx : (x, since) ∈ c'.superseded) :
    (∃ c, chain = some c ∧ (x, since) ∈ c.superseded) ∨ ∃ t new, e = .rotated t id x new since := by
  cases h with
  | starts => cases hx
  | rotates t c new at' hc =>
    rcases List.mem_cons.mp hx with heq | hold
    · cases heq
      exact .inr ⟨t, new, rfl⟩
    · exact .inl ⟨c, hc, hold⟩
  | elevates c new at' hc => exact .inl ⟨c, hc, hx⟩
  | raises c hc => exact .inl ⟨c, hc, hx⟩
  | stays => exact .inl ⟨c', rfl, hx⟩

/-- Unless it ends, a session is still its user's, and has superseded what it had. -/
theorem kept_onChain (c : Chain) (he : e ≠ .ended id) : ∃ c', e.onChain id (some c) = some c' ∧
    c'.userId = c.userId ∧ ∀ y ∈ c.superseded, y ∈ c'.superseded := by
  unfold Event.onChain
  cases e with
  | rotated t id' old new at' =>
    refine ⟨_, rfl, ?_⟩
    split_ifs
    · exact ⟨rfl, fun y hy => List.mem_cons_of_mem _ hy⟩
    · exact ⟨rfl, fun y hy => hy⟩
  | elevated id' new at' =>
    refine ⟨_, rfl, ?_⟩
    split_ifs <;> exact ⟨rfl, fun y hy => hy⟩
  | raised id' =>
    refine ⟨_, rfl, ?_⟩
    split_ifs <;> exact ⟨rfl, fun y hy => hy⟩
  | ended id' =>
    refine ⟨c, if_neg fun hsame => he ?_, rfl, fun y hy => hy⟩
    rw [hsame]
  | _ => exact ⟨c, rfl, rfl, fun y hy => hy⟩

/-! ## What holds of every history -/

/-- The tokens of the sessions are apart, and a pending session has superseded none. -/
structure Apart (log : List Event) : Prop where
  minted : ∀ id c, chainOf log id = some c → ∀ x ∈ c.tokens, x ∈ tokens log
  nodup : ∀ id c, chainOf log id = some c → c.tokens.Nodup
  one : ∀ id id' c c' x, chainOf log id = some c → chainOf log id' = some c' → x ∈ c.tokens → x ∈ c'.tokens →
    id = id'
  pending : ∀ id c, chainOf log id = some c → c.level = .pending → c.superseded = []

theorem Apart.concat (h : Apart log) (he : e.Allowed log) : Apart (log ++ [e]) where
  minted := by
    intro id c hc x hx
    rw [chainOf_concat] at hc
    have hmoves := moves he id
    rw [hc] at hmoves
    rcases hmoves.tokens hx with ⟨c₀, hc₀, hold⟩ | ⟨hmints, -⟩
    · exact mem_tokens_concat (h.minted id c₀ hc₀ x hold) e
    · rw [tokens_concat, hmints]
      exact List.mem_append_right _ (List.mem_singleton_self _)
  nodup := by
    intro id c hc
    rw [chainOf_concat] at hc
    have hmoves := moves he id
    rw [hc] at hmoves
    generalize hchain : chainOf log id = chain at hmoves
    cases hmoves with
    | starts => exact List.nodup_singleton _
    | rotates t c₀ new at' hc₀ hnew =>
      have hold := hchain.trans hc₀
      exact List.nodup_cons.mpr ⟨fun hmem => hnew (h.minted id c₀ hold new hmem), h.nodup id c₀ hold⟩
    | elevates c₀ new at' hc₀ hnew =>
      have hold := hchain.trans hc₀
      have hnodup := List.nodup_cons.mp (h.nodup id c₀ hold)
      exact List.nodup_cons.mpr ⟨fun hmem => hnew (h.minted id c₀ hold new (List.mem_cons_of_mem _ hmem)), hnodup.2⟩
    | raises c₀ hc₀ => exact h.nodup id c₀ (hchain.trans hc₀)
    | stays => exact h.nodup id c hchain
  one := by
    intro id id' c c' x hc hc' hx hx'
    rw [chainOf_concat] at hc hc'
    have hmoves := moves he id
    have hmoves' := moves he id'
    rw [hc] at hmoves
    rw [hc'] at hmoves'
    rcases hmoves.tokens hx with ⟨c₀, hc₀, hold⟩ | ⟨hmints, hnew⟩
    · rcases hmoves'.tokens hx' with ⟨c₁, hc₁, hold'⟩ | ⟨-, hnew'⟩
      · exact h.one id id' c₀ c₁ x hc₀ hc₁ hold hold'
      · exact absurd (h.minted id c₀ hc₀ x hold) hnew'
    · rcases hmoves'.tokens hx' with ⟨c₁, hc₁, hold'⟩ | ⟨hmints', -⟩
      · exact absurd (h.minted id' c₁ hc₁ x hold') hnew
      · rw [hmints] at hmints'
        cases hmints'
        rfl
  pending := by
    intro id c hc hlevel
    rw [chainOf_concat] at hc
    have hmoves := moves he id
    rw [hc] at hmoves
    generalize hchain : chainOf log id = chain at hmoves
    cases hmoves with
    | starts => rfl
    | rotates t c₀ new at' hc₀ hnew hlevel₀ => exact absurd hlevel hlevel₀
    | elevates => cases hlevel
    | raises => cases hlevel
    | stays => exact h.pending id c hchain hlevel

theorem apart (h : Lawful Event.Allowed log) : Apart log := by
  refine Lawful.induction ?_ (fun log e _ he ih => ih.concat he) h
  have hnone : ∀ id, chainOf [] id = none := fun _ => rfl
  exact ⟨by simp [hnone], by simp [hnone], by simp [hnone], by simp [hnone]⟩

/-! ## What is superseded stays so -/

/-- A superseded token is not current again. -/
theorem superseded_gone (h : Lawful Event.Allowed log) : ∀ t id old new at', Event.rotated t id old new at' ∈ log →
    old ∈ tokens log ∧ ∀ id' c, chainOf log id' = some c → c.current ≠ old := by
  refine Lawful.induction (by simp) (fun log e hlog he ih => ?_) h
  intro t id old new at' hmem
  have hapart := apart hlog
  -- no event makes a token current that there was before
  have hold : old ∈ tokens log ∧ ∀ id' c, chainOf log id' = some c → (id' = id → e ≠ .rotated t id old new at') →
      c.current ≠ old := by
    rcases List.mem_append.mp hmem with hmem | hmem
    · exact ⟨(ih t id old new at' hmem).1, fun id' c hc _ => (ih t id old new at' hmem).2 id' c hc⟩
    · obtain rfl := List.mem_singleton.mp hmem
      obtain ⟨-, c, hc, rfl, -⟩ := he
      refine ⟨hapart.minted id c hc _ List.mem_cons_self, fun id' c' hc' hother hsame => hother ?_ rfl⟩
      refine hapart.one id' id c' c c.current hc' hc ?_ List.mem_cons_self
      rw [← hsame]
      exact List.mem_cons_self
  refine ⟨mem_tokens_concat hold.1 e, fun id' c hc hcurrent => ?_⟩
  rw [chainOf_concat] at hc
  have hmoves := moves he id'
  rw [hc] at hmoves
  generalize hchain : chainOf log id' = chain at hmoves
  cases hmoves with
  | starts input at'' _ _ _ htoken =>
    have hsame : input.tokenHash = old := hcurrent
    exact htoken (hsame ▸ hold.1)
  | rotates t' c₀ new' at'' _ hnew =>
    have hsame : new' = old := hcurrent
    exact hnew (hsame ▸ hold.1)
  | elevates c₀ new' at'' _ hnew =>
    have hsame : new' = old := hcurrent
    exact hnew (hsame ▸ hold.1)
  | raises c₀ hc₀ => exact hold.2 id' c₀ (hchain.trans hc₀) (fun _ heq => by cases heq) hcurrent
  | stays =>
    refine hold.2 id' c hchain (fun hid heq => ?_) hcurrent
    subst hid heq
    rw [hchain] at hc
    unfold Event.onChain at hc
    dsimp only at hc
    rw [if_pos rfl] at hc
    have hsame : new = c.current := congrArg Chain.current (Option.some.inj hc)
    exact he.1 (hsame.trans hcurrent ▸ hold.1)

/-- What a session has superseded, a rotation of it has. -/
theorem rotated_of_superseded (h : Lawful Event.Allowed log) : ∀ id c x since, chainOf log id = some c →
    (x, since) ∈ c.superseded → ∃ t new, Event.rotated t id x new since ∈ log := by
  refine Lawful.induction (fun _ _ _ _ h => by cases h) (fun log e hlog he ih => ?_) h
  intro id c x since hc hx
  rw [chainOf_concat] at hc
  have hmoves := moves he id
  rw [hc] at hmoves
  rcases hmoves.superseded hx with ⟨c₀, hc₀, hold⟩ | ⟨t, new, rfl⟩
  · obtain ⟨t, new, hmem⟩ := ih id c₀ x since hc₀ hold
    exact ⟨t, new, List.mem_append_left _ hmem⟩
  · exact ⟨t, new, List.mem_append_right _ (List.mem_singleton_self _)⟩

/-- **A token is superseded once.** -/
theorem rotated_once (h : Lawful Event.Allowed log) {t t' : ℕ} {id id' old new new' : Text} {at' at'' : Time}
    (hr : Event.rotated t id old new at' ∈ log) (hr' : Event.rotated t' id' old new' at'' ∈ log) :
    Event.rotated t id old new at' = Event.rotated t' id' old new' at'' := by
  by_contra hne
  obtain ⟨earlier, later, ⟨hlog, hmem, hallowed⟩ | ⟨hlog, hmem, hallowed⟩⟩ := h.of_mem_of_mem hr hr' hne
  · obtain ⟨-, c, hc, hcurrent, -⟩ := hallowed
    exact (superseded_gone (hlog ▸ h).earlier _ _ _ _ _ hmem).2 id' c hc hcurrent
  · obtain ⟨-, c, hc, hcurrent, -⟩ := hallowed
    exact (superseded_gone (hlog ▸ h).earlier _ _ _ _ _ hmem).2 id c hc hcurrent

/-- **Grace.** A superseded token is admitted for a short while only. -/
theorem admitted_within_grace (h : Lawful Event.Allowed log) {earlier later : List Event} {t u : ℕ}
    {id id' old new : Text} {at' at'' : Time} {account : Account}
    (hlog : log = earlier ++ .admitted u old id' account at'' :: later) (hr : Event.rotated t id old new at' ∈ earlier) :
    at'' ≤ at' + seconds SESSION_ROTATION_GRACE_SECONDS := by
  have hearlier : Lawful Event.Allowed earlier := (hlog ▸ h).earlier
  obtain ⟨c, hc, hadmits⟩ := h _ _ _ hlog
  rcases hadmits.recent with hcurrent | ⟨since, hhead, hle⟩
  · exact absurd hcurrent.symm ((superseded_gone hearlier _ _ _ _ _ hr).2 id' c hc)
  · obtain ⟨t', new', hr'⟩ := rotated_of_superseded hearlier id' c old since hc (List.mem_of_mem_head? hhead)
    have hsame := rotated_once hearlier hr hr'
    cases hsame
    exact hle

/-! ## Pending sessions -/

/-- The token of a session that was opened pending is not one of a session that is not. -/
theorem pending_dropped (h : Lawful Event.Allowed log) : ∀ input at', Event.opened input at' ∈ log →
    input.assurance = .pending → input.tokenHash ∈ tokens log ∧
      ∀ id c, chainOf log id = some c → c.level ≠ .pending → input.tokenHash ∉ c.tokens := by
  refine Lawful.induction (by simp) (fun log e hlog he ih => ?_) h
  intro input at' hmem hpending
  have hapart := apart hlog
  rcases List.mem_append.mp hmem with hmem | hmem
  · obtain ⟨hminted, hdropped⟩ := ih input at' hmem hpending
    refine ⟨mem_tokens_concat hminted e, fun id c hc hlevel hin => ?_⟩
    rw [chainOf_concat] at hc
    have hmoves := moves he id
    rw [hc] at hmoves
    rcases hmoves.tokens hin with ⟨c₀, hc₀, hold⟩ | ⟨-, hnew⟩
    · refine hdropped id c₀ hc₀ (fun hlevel₀ => ?_) hold
      -- an elevation drops what it finds
      have hnone := hapart.pending id c₀ hc₀ hlevel₀
      rw [hc₀] at hmoves
      cases hmoves with
      | starts _ _ _ h₁ => cases h₁
      | rotates t _ new _ h₁ _ hlevel₁ =>
        cases h₁
        exact hlevel₁ hlevel₀
      | elevates _ new _ h₁ hnew =>
        cases h₁
        obtain rfl : input.tokenHash = new := by simpa [Chain.tokens, Chain.elevate, hnone] using hin
        exact hnew hminted
      | raises _ h₁ hlevel₁ =>
        cases h₁
        exact hlevel₁ hlevel₀
      | stays => exact hlevel hlevel₀
    · exact hnew hminted
  · obtain rfl := List.mem_singleton.mp hmem
    refine ⟨?_, fun id c hc hlevel hin => ?_⟩
    · rw [tokens_concat]
      exact List.mem_append_right _ (List.mem_singleton_self _)
    · rw [chainOf_concat] at hc
      have hmoves := moves he id
      rw [hc] at hmoves
      generalize hchain : chainOf log id = chain at hmoves
      cases hmoves with
      | starts => exact hlevel hpending
      | stays => exact he.2 (hapart.minted id c hchain _ hin)

/-- **A pending session opens nothing**, before or after its elevation. -/
theorem pending_not_admitted (h : Lawful Event.Allowed log) {input : NewSession} {at' at'' : Time} {t : ℕ}
    {id : Text} {account : Account} (hopened : Event.opened input at' ∈ log) (hpending : input.assurance = .pending) :
    Event.admitted t input.tokenHash id account at'' ∉ log := by
  intro hmem
  obtain ⟨earlier, later, hlog⟩ := List.append_of_mem hmem
  obtain ⟨c, hc, hadmits⟩ := h _ _ _ hlog
  have hlevel : c.level ≠ .pending := by
    rcases hadmits.level with hlevel | ⟨hlevel, -⟩ <;> simp [hlevel]
  have htoken : input.tokenHash ∈ c.tokens := by
    rcases hadmits.recent with hcurrent | ⟨since, hhead, -⟩
    · exact hcurrent ▸ List.mem_cons_self
    · exact List.mem_cons_of_mem _ (List.mem_map.mpr ⟨_, List.mem_of_mem_head? hhead, rfl⟩)
  have hearlier : Lawful Event.Allowed earlier := (hlog ▸ h).earlier
  rw [hlog] at hopened
  rcases List.mem_append.mp hopened with hbefore | hafter
  · exact (pending_dropped hearlier input at' hbefore hpending).2 id c hc hlevel htoken
  · -- a token that is not minted yet is nobody's
    rcases List.mem_cons.mp hafter with heq | hafter
    · cases heq
    · obtain ⟨between, rest, rfl⟩ := List.append_of_mem hafter
      have hsplit : log = (earlier ++ .admitted t input.tokenHash id account at'' :: between) ++
          .opened input at' :: rest := by
        rw [hlog, List.append_assoc, List.cons_append]
      refine (h _ _ _ hsplit).2 ?_
      have hminted := (apart hearlier).minted id c hc _ htoken
      unfold tokens at hminted ⊢
      rw [List.filterMap_append, List.map_append]
      exact List.mem_append_left _ hminted

/-! ## The end of a session -/

/-- A session that has not ended is its user's. -/
theorem ended_or_kept {earlier : List Event} (hc : chainOf earlier id = some c) (later : List Event) :
    Event.ended id ∈ later ∨ ∃ c', chainOf (earlier ++ later) id = some c' ∧ c'.userId = c.userId := by
  induction later using List.reverseRecOn with
  | nil => exact .inr ⟨c, by rw [List.append_nil]; exact hc, rfl⟩
  | append_singleton later e ih =>
    rcases ih with hended | ⟨c', hc', huser⟩
    · exact .inl (List.mem_append_left _ hended)
    · by_cases he : e = .ended id
      · exact .inl (List.mem_append_right _ (List.mem_singleton.mpr he.symm))
      · obtain ⟨c'', hc'', huser', -⟩ := kept_onChain c' he
        refine .inr ⟨c'', ?_, huser'.trans huser⟩
        rw [← List.append_assoc, chainOf_concat, hc', hc'']

/-- A session that has ended admits nobody. -/
theorem ended_not_admitted (h : Lawful Event.Allowed log) {earlier later : List Event} {t : ℕ} {token : Text}
    {account : Account} {at' : Time} (hlog : log = earlier ++ .ended id :: later) :
    Event.admitted t token id account at' ∉ later := by
  intro hmem
  obtain ⟨between, rest, rfl⟩ := List.append_of_mem hmem
  have hgone : ∀ after, Lawful Event.Allowed (earlier ++ .ended id :: after) →
      id ∈ opened (earlier ++ .ended id :: after) ∧ chainOf (earlier ++ .ended id :: after) id = none := by
    intro after
    induction after using List.reverseRecOn with
    | nil =>
      intro hlawful
      obtain ⟨c, hc⟩ := hlawful.of_concat.2
      rw [opened_concat, chainOf_concat, hc]
      exact ⟨List.mem_append_left _ (mem_opened_of_chainOf hc), if_pos rfl⟩
    | append_singleton after e ih =>
      intro hlawful
      rw [← List.cons_append, ← List.append_assoc] at hlawful ⊢
      obtain ⟨hbefore, he⟩ := hlawful.of_concat
      obtain ⟨hmem, hnone⟩ := ih hbefore
      rw [opened_concat, chainOf_concat, hnone]
      refine ⟨List.mem_append_left _ hmem, ?_⟩
      cases e with
      | opened input at'' =>
        refine if_neg fun hid : input.id = id => he.1 ?_
        rw [hid]
        exact hmem
      | _ => rfl
  have hsplit : log = (earlier ++ .ended id :: between) ++ .admitted t token id account at' :: rest := by
    rw [hlog, List.append_assoc, List.cons_append]
  obtain ⟨c, hc, -⟩ := h _ _ _ hsplit
  rw [(hgone between (hsplit ▸ h).earlier).2] at hc
  cases hc

end Log

end BunMail.Users.Guard
