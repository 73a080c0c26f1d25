import BunMail.Utils.WindowAgreement

/-!
# The throttle of SMTP AUTH

`submission-limits.ts`: an attempt is counted before its key is looked up, and given back when the
key was valid or the lookup failed.  Any number of calls run at once; the lookup of each may take
arbitrarily long.
-/

namespace BunMail.SmtpSubmission

open Timed Utils.Windows

/-! ## The calls -/

/-- `AuthRateLimit`. -/
structure AuthRateLimit where
  enabled : Bool
  maxAttempts : ℕ
  windowSec : ℕ
  windowSec_pos : 1 ≤ windowSec

/-- `AuthOutcome`. -/
inductive AuthOutcome where
  | rateLimited
  | noCredentials
  | invalid
  | lookupFailed
  | authenticated
  deriving DecidableEq

/-- What became of a lookup. -/
inductive Lookup where
  | threw
  | missing
  | found (isActive : Bool)

/-- Where a call is. -/
inductive Phase where
  | looking
  | refunding (outcome : AuthOutcome)
  | ended (outcome : AuthOutcome)
  deriving DecidableEq

/-- A call of `throttledAuth`: the attempt it counted, where it is, whether it called `lookup`. -/
structure AuthCall where
  bucket : Text
  attempt : Option WindowIds
  phase : Phase
  lookedUp : Bool

/-- What the throttle calls of a counter. -/
structure Store (σ : Type) where
  take : σ → Time → DistinctKeys → WindowOptions → WindowDecision × σ
  refund : σ → Time → Text → Text → σ
  prune : σ → Time → σ

/-- The counter, and the calls so far. -/
structure Throttle (σ : Type) where
  authCounter : σ
  calls : List AuthCall

inductive AuthAct where
  /-- `throttledAuth` is called with a candidate of the bucket. -/
  | call (bucket candidate : Text)
  /-- The lookup of a call comes back. -/
  | lookup (call : ℕ) (result : Lookup)
  /-- The refund of a call is made. -/
  | refund (call : ℕ)
  | prune

/-- An act, at the clock's time. -/
structure AuthEvent where
  time : Time
  act : AuthAct

/-- The options of `takeAuthAttempt`. -/
def AuthRateLimit.options (limit : AuthRateLimit) : WindowOptions where
  max := limit.maxAttempts
  windowMs := limit.windowSec * 1000
  weight := 1
  refusedWeight := 0
  windowMs_pos := Nat.mul_pos limit.windowSec_pos (by decide)
  weight_pos := le_rfl
  refusedWeight_nonneg := le_rfl

namespace Throttle

variable {σ : Type} (I : Store σ) (limit : AuthRateLimit) (s : Throttle σ) (now : Time)

/-- After the attempt is counted: the lookup begins, unless there is no candidate. -/
def counted (counter : σ) (bucket candidate : Text) (attempt : Option WindowIds) : Throttle σ :=
  ⟨counter, s.calls ++ [if candidate = [] then ⟨bucket, attempt, .ended .noCredentials, false⟩
    else ⟨bucket, attempt, .looking, true⟩]⟩

/-- `throttledAuth`, up to its lookup. -/
def begin (bucket candidate : Text) : Throttle σ :=
  if limit.enabled then
    let decision := I.take s.authCounter now ⟨[bucket], List.nodup_singleton bucket⟩ limit.options
    if decision.1.limited then
      ⟨decision.2, s.calls ++ [⟨bucket, none, .ended .rateLimited, false⟩]⟩
    else s.counted decision.2 bucket candidate (some decision.1.windows)
  else s.counted s.authCounter bucket candidate none

/-- What follows a lookup. -/
def afterLookup : Lookup → Phase
  | .threw => .refunding .lookupFailed
  | .missing => .ended .invalid
  | .found isActive => if isActive then .refunding .authenticated else .ended .invalid

/-- `refundAuthAttempt`. -/
def refunded (c : AuthCall) : σ :=
  (c.attempt.bind (Table.get? · c.bucket)).elim s.authCounter (I.refund s.authCounter now c.bucket)

/-- The call goes on. -/
def setPhase (n : ℕ) (phase : Phase) : Throttle σ :=
  { s with calls := s.calls.modify n fun c => { c with phase := phase } }

/-- The refund of a call, if it is to make one. -/
def refundOf (n : ℕ) (c : AuthCall) : Throttle σ :=
  match c.phase with
  | .refunding outcome => { s.setPhase n (.ended outcome) with authCounter := s.refunded I now c }
  | _ => s

/-- One step. -/
def step (e : AuthEvent) : Throttle σ :=
  match e.act with
  | .call bucket candidate => s.begin I limit e.time bucket candidate
  | .lookup n result =>
    (s.calls[n]?.filter fun c => c.phase = .looking).elim s fun _ => s.setPhase n (afterLookup result)
  | .refund n => s.calls[n]?.elim s (s.refundOf I e.time n)
  | .prune => { s with authCounter := I.prune s.authCounter e.time }

end Throttle

/-! ## What is counted -/

section Counts

variable {σ : Type}

/-- The window of its bucket that the call is counted in. -/
def AuthCall.window (c : AuthCall) : Option Text := c.attempt.bind (Table.get? · c.bucket)

/-- The call is counted in the window of the bucket. -/
def AuthCall.countedIn (bucket id : Text) (c : AuthCall) : Bool :=
  decide (c.bucket = bucket) && (c.window == some id)

/-- The call came back invalid, or without credentials. -/
def AuthCall.isFailure (c : AuthCall) : Bool :=
  (c.phase == .ended .invalid) || (c.phase == .ended .noCredentials)

/-- The call has not given its count back. -/
def AuthCall.held (c : AuthCall) : Bool :=
  match c.phase with
  | .looking => true
  | .refunding _ => true
  | .ended _ => c.isFailure

/-- The failures of a window. -/
def failures (calls : List AuthCall) (bucket id : Text) : ℕ :=
  calls.countP fun c => c.countedIn bucket id && c.isFailure

/-- The counts of a window that were not given back. -/
def heldIn (calls : List AuthCall) (bucket id : Text) : ℕ :=
  calls.countP fun c => c.countedIn bucket id && c.held

theorem failures_le_heldIn (calls : List AuthCall) (bucket id : Text) :
    failures calls bucket id ≤ heldIn calls bucket id := by
  refine List.countP_mono_left fun c _ hc => ?_
  rw [Bool.and_eq_true] at hc ⊢
  refine ⟨hc.1, ?_⟩
  unfold AuthCall.held
  cases hp : c.phase with
  | ended outcome => exact hc.2
  | _ => rfl

end Counts

/-! ## The invariant -/

/-- One item is rewritten. -/
theorem countP_modify {α : Type} (p : α → Bool) (f : α → α) {l : List α} {n : ℕ} {a : α}
    (h : l[n]? = some a) :
    (l.modify n f).countP p + (if p a then 1 else 0) = l.countP p + if p (f a) then 1 else 0 := by
  induction l generalizing n with
  | nil => simp at h
  | cons b l ih =>
    cases n with
    | zero =>
      cases (Option.some.inj h : b = a)
      rw [List.modify_zero_cons, List.countP_cons, List.countP_cons]
      omega
    | succ n =>
      have := ih (n := n) (by simpa using h)
      rw [List.modify_succ_cons, List.countP_cons, List.countP_cons]
      omega

section Invariant

variable {σ : Type} {f : σ → Time → Op → Answer × σ} (A : Lawful f) (I : Store σ)
  (limit : AuthRateLimit)

/-- The store makes the calls of the counter. -/
structure Store.Calls (f : σ → Time → Op → Answer × σ) (I : Store σ) : Prop where
  take : ∀ s now keys options, f s now (.take keys options) =
    (.took (I.take s now keys options).1, (I.take s now keys options).2)
  refund : ∀ s now key id, (f s now (.refund key id)).2 = I.refund s now key id
  prune : ∀ s now, (f s now .prune).2 = I.prune s now

/-- A window holds the counts that were not given back, and no window holds more than the limit. -/
structure Tallied (now : Time) (s : Throttle σ) : Prop where
  inv : A.Inv now s.authCounter
  used : ∀ c ∈ s.calls, ∀ id, c.window = some id → A.used s.authCounter id
  tally : ∀ bucket w, A.view s.authCounter now bucket = some w →
    w.count = heldIn s.calls bucket w.id
  bound : ∀ bucket id, heldIn s.calls bucket id ≤ limit.maxAttempts
  refunding : ∀ c ∈ s.calls, ∀ o, c.phase = .refunding o → o = .lookupFailed ∨ o = .authenticated
  noLookup : ∀ c ∈ s.calls, c.phase = .ended .rateLimited → c.lookedUp = false

variable {A I limit} {now : Time} {s : Throttle σ}

theorem Tallied.mono (h : Tallied A limit now s) {later : Time} (hle : now ≤ later) :
    Tallied A limit later s :=
  ⟨A.inv_later hle h.inv, h.used, fun bucket w hw => h.tally bucket w (Lawful.view_sub hle hw),
    h.bound, h.refunding, h.noLookup⟩

/-- No call is counted in a window that has not begun. -/
theorem Tallied.heldIn_fresh (h : Tallied A limit now s) {id : Text} (hid : ¬ A.used s.authCounter id)
    (bucket : Text) : heldIn s.calls bucket id = 0 := by
  rw [heldIn, List.countP_eq_zero]
  intro c hc hp
  simp only [AuthCall.countedIn, Bool.and_eq_true, beq_iff_eq] at hp
  exact hid (h.used c hc id hp.1.2)

theorem heldIn_concat (calls : List AuthCall) (c : AuthCall) (bucket id : Text) :
    heldIn (calls ++ [c]) bucket id =
      heldIn calls bucket id + if c.countedIn bucket id && c.held then 1 else 0 := by
  rw [heldIn, List.countP_append, List.countP_singleton]
  rfl

/-- The counter changes, but not what it shows of the counted windows. -/
theorem Tallied.of_counter (h : Tallied A limit now s) {op : Op}
    (hview : A.view (f s.authCounter now op).2 now = A.view s.authCounter now) :
    Tallied A limit now { s with authCounter := (f s.authCounter now op).2 } := by
  refine ⟨A.inv op h.inv, fun c hc id hid => A.used_call op h.inv (h.used c hc id hid), ?_, h.bound,
    h.refunding, h.noLookup⟩
  intro bucket w hw
  rw [hview] at hw
  exact h.tally bucket w hw

/-- A call is added that no window counts. -/
theorem Tallied.concat (h : Tallied A limit now s) {c : AuthCall} (hwindow : c.window = none)
    (hrefunding : ∀ o, c.phase ≠ .refunding o)
    (hlookup : c.phase = .ended .rateLimited → c.lookedUp = false) :
    Tallied A limit now { s with calls := s.calls ++ [c] } := by
  have hheld : ∀ bucket id, heldIn (s.calls ++ [c]) bucket id = heldIn s.calls bucket id := by
    intro bucket id
    rw [heldIn_concat, if_neg, add_zero]
    simp [AuthCall.countedIn, hwindow]
  have hmem : ∀ {P : AuthCall → Prop}, (∀ d ∈ s.calls, P d) → P c → ∀ d ∈ s.calls ++ [c], P d := by
    intro P hs hc d hd
    rcases List.mem_append.mp hd with hd | hd
    · exact hs d hd
    · exact List.mem_singleton.mp hd ▸ hc
  refine ⟨h.inv, hmem h.used fun id hid => ?_, fun bucket w hw => ?_, fun bucket id => ?_,
    hmem h.refunding fun o ho => absurd ho (hrefunding o), hmem h.noLookup hlookup⟩
  · exact absurd (hwindow.symm.trans hid) (by simp)
  · rw [hheld]
    exact h.tally bucket w hw
  · rw [hheld]
    exact h.bound bucket id

/-- **The count.** A call that is counted joins the window its attempt names, and that window stays
within the limit. -/
theorem Tallied.counted (h : Tallied A limit now s) {d : WindowDecision} {op : Op} {c : AuthCall}
    (htakes : Takes limit.options now [c.bucket] (fun id => ¬ A.used s.authCounter id)
      (A.view s.authCounter now) (A.view (f s.authCounter now op).2 now) d)
    (hlimited : d.limited = false) (hattempt : c.attempt = some d.windows) (hheld : c.held = true)
    (hrefunding : ∀ o, c.phase ≠ .refunding o) (hlookup : c.phase ≠ .ended .rateLimited) :
    Tallied A limit now ⟨(f s.authCounter now op).2, s.calls ++ [c]⟩ := by
  have hmem : c.bucket ∈ [c.bucket] := List.mem_singleton_self c.bucket
  rw [htakes.limited] at hlimited
  have hadd : added limit.options (A.view s.authCounter now) [c.bucket] = 1 := by
    unfold added
    rw [hlimited]
    rfl
  -- the window of the bucket after the take
  obtain ⟨w', hw'⟩ : ∃ w', A.view (f s.authCounter now op).2 now c.bucket = some w' := by
    obtain ⟨id, _, hid⟩ := htakes.self c.bucket hmem
    rw [hid, Utils.Windows.counted, hadd, if_pos one_pos]
    exact ⟨_, rfl⟩
  have hcount : w'.count = heldIn s.calls c.bucket w'.id + 1 := by
    rcases htakes.origin hw' with ⟨w, hw, hid, _, hcount⟩ | ⟨_, _, hfresh, _, hcount⟩
    · rw [hcount, if_pos hmem, hadd, h.tally c.bucket w hw, hid]
    · rw [hcount, hadd, h.heldIn_fresh hfresh]
      rfl
  have hmax : w'.count ≤ limit.maxAttempts := by
    refine htakes.bounded (fun _ => ⟨rfl, le_rfl⟩) (fun w hw => ?_) hw'
    rw [h.tally c.bucket w hw]
    exact Int.ofNat_le.mpr (h.bound c.bucket w.id)
  have hwindow : c.window = some w'.id := by
    rw [AuthCall.window, hattempt, Option.bind_some, htakes.get?_windows, if_pos hmem, hw']
    rfl
  have hheldIn : ∀ b i, heldIn (s.calls ++ [c]) b i =
      heldIn s.calls b i + if b = c.bucket ∧ i = w'.id then 1 else 0 := by
    intro b i
    rw [heldIn_concat, hheld, Bool.and_true, AuthCall.countedIn, hwindow]
    congr 1
    by_cases hb : b = c.bucket
    · subst hb
      by_cases hi : i = w'.id
      · simp [hi]
      · simp [hi, Ne.symm hi]
    · simp [hb, Ne.symm hb]
  refine ⟨A.inv op h.inv, ?_, fun b w hw => ?_, fun b i => ?_, ?_, ?_⟩
  · intro c' hc' id hid
    rcases List.mem_append.mp hc' with hc' | hc'
    · exact A.used_call op h.inv (h.used c' hc' id hid)
    · rw [List.mem_singleton.mp hc', hwindow] at hid
      cases hid
      exact (A.sound (A.inv op h.inv) hw').2.2
  · show w.count = (heldIn (s.calls ++ [c]) b w.id : ℤ)
    rw [hheldIn]
    by_cases hb : b = c.bucket
    · subst hb
      cases hw'.symm.trans hw
      rw [if_pos ⟨rfl, rfl⟩, hcount]
      rfl
    · rw [if_neg fun hand => hb hand.1, add_zero]
      have hsame := htakes.other b (by simpa using hb)
      exact h.tally b w (hsame ▸ hw)
  · show heldIn (s.calls ++ [c]) b i ≤ _
    rw [hheldIn]
    split_ifs with hand
    · obtain ⟨rfl, rfl⟩ := hand
      omega
    · exact h.bound b i
  · intro c' hc' o ho
    rcases List.mem_append.mp hc' with hc' | hc'
    · exact h.refunding c' hc' o ho
    · rw [List.mem_singleton.mp hc'] at ho
      exact absurd ho (hrefunding o)
  · intro c' hc' hphase
    rcases List.mem_append.mp hc' with hc' | hc'
    · exact h.noLookup c' hc' hphase
    · rw [List.mem_singleton.mp hc'] at hphase
      exact absurd hphase hlookup

theorem Tallied.begin (hI : I.Calls f) (henabled : limit.enabled = true) (h : Tallied A limit now s)
    (bucket candidate : Text) : Tallied A limit now (s.begin I limit now bucket candidate) := by
  have heffect := A.effect (.take ⟨[bucket], List.nodup_singleton bucket⟩ limit.options) h.inv
  obtain ⟨d, hd, htakes⟩ := heffect
  rw [hI.take] at hd
  cases hd
  unfold Throttle.begin
  rw [if_pos henabled]
  dsimp only
  have hcounter := congrArg Prod.snd (hI.take s.authCounter now
    ⟨[bucket], List.nodup_singleton bucket⟩ limit.options)
  dsimp only at hcounter
  split_ifs with hlimited
  · -- refused: nothing is counted
    have hview : A.view (f s.authCounter now (.take ⟨[bucket], List.nodup_singleton bucket⟩
        limit.options)).2 now = A.view s.authCounter now := by
      funext k
      by_cases hk : k ∈ [bucket]
      · obtain ⟨id, _, hid⟩ := htakes.self k hk
        rw [hid, Utils.Windows.counted, if_neg]
        unfold added
        rw [← htakes.limited, hlimited]
        exact lt_irrefl 0
      · exact htakes.other k hk
    rw [← hcounter]
    exact (h.of_counter hview).concat rfl (fun _ h => by cases h) fun _ => rfl
  · rw [← hcounter, Throttle.counted]
    rw [Bool.not_eq_true] at hlimited
    split_ifs with hcandidate
    · exact h.counted htakes hlimited rfl rfl (fun _ h => by cases h) fun h => by cases h
    · exact h.counted htakes hlimited rfl rfl (fun _ h => by cases h) fun h => by cases h

/-- The calls of a rewritten list. -/
theorem forall_mem_modify {P : AuthCall → Prop} {calls : List AuthCall} {n : ℕ} {c : AuthCall}
    {g : AuthCall → AuthCall} (hc : calls[n]? = some c) (h : ∀ d ∈ calls, P d) (hg : P (g c)) :
    ∀ d ∈ calls.modify n g, P d := by
  intro d hd
  obtain ⟨m, hm⟩ := List.mem_iff_getElem?.mp hd
  rw [List.getElem?_modify] at hm
  by_cases heq : n = m
  · subst heq
    rw [hc] at hm
    simp only [if_true, Option.map_eq_map, Option.map_some, Option.some.injEq] at hm
    exact hm ▸ hg
  · simp only [heq, if_false, Option.map_eq_map, Option.map_id_fun', id_eq] at hm
    exact h d (List.mem_of_getElem? hm)

/-- What a phase change does to the counts of a window. -/
theorem heldIn_setPhase {n : ℕ} {c : AuthCall} (hc : s.calls[n]? = some c) (phase : Phase)
    (bucket id : Text) :
    heldIn (s.setPhase n phase).calls bucket id +
        (if c.countedIn bucket id && c.held then 1 else 0) =
      heldIn s.calls bucket id +
        if c.countedIn bucket id && { c with phase := phase }.held then 1 else 0 :=
  countP_modify _ _ hc

theorem Tallied.lookup (h : Tallied A limit now s) {n : ℕ} {c : AuthCall}
    (hc : s.calls[n]? = some c) (hphase : c.phase = .looking) (result : Lookup) :
    Tallied A limit now (s.setPhase n (Throttle.afterLookup result)) := by
  have hmem := List.mem_of_getElem? hc
  have hnext : { c with phase := Throttle.afterLookup result }.held = true ∧
      (∀ o, Throttle.afterLookup result = .refunding o → o = .lookupFailed ∨ o = .authenticated) ∧
      Throttle.afterLookup result ≠ .ended .rateLimited := by
    cases result with
    | threw => exact ⟨rfl, fun o ho => .inl (by cases ho; rfl), by decide⟩
    | missing => exact ⟨rfl, fun o ho => (by cases ho), by decide⟩
    | found isActive =>
      cases isActive with
      | true => exact ⟨rfl, fun o ho => .inr (by cases ho; rfl), by decide⟩
      | false => exact ⟨rfl, fun o ho => (by cases ho), by decide⟩
  have hheld : c.held = true := by
    unfold AuthCall.held
    rw [hphase]
  have hsame : ∀ bucket id, heldIn (s.setPhase n (Throttle.afterLookup result)).calls bucket id =
      heldIn s.calls bucket id := by
    intro bucket id
    have := heldIn_setPhase hc (Throttle.afterLookup result) bucket id
    rw [hheld, hnext.1] at this
    omega
  refine ⟨h.inv, forall_mem_modify hc h.used (h.used c hmem), fun bucket w hw => ?_,
    fun bucket id => ?_, forall_mem_modify hc h.refunding hnext.2.1,
    forall_mem_modify hc h.noLookup fun heq => absurd heq hnext.2.2⟩
  · rw [hsame]
    exact h.tally bucket w hw
  · rw [hsame]
    exact h.bound bucket id

/-- **The refund.** A call that ends without a failure takes its own count back, from the window it
was counted in. -/
theorem Tallied.refund (hI : I.Calls f) (h : Tallied A limit now s) {n : ℕ} {c : AuthCall}
    (hc : s.calls[n]? = some c) {o : AuthOutcome} (hphase : c.phase = .refunding o) :
    Tallied A limit now
      { s.setPhase n (.ended o) with authCounter := s.refunded I now c } := by
  have hmem := List.mem_of_getElem? hc
  have ho := h.refunding c hmem o hphase
  have hheld : c.held = true := by
    unfold AuthCall.held
    rw [hphase]
  have hended : { c with phase := .ended o }.held = false := by
    rcases ho with rfl | rfl <;> rfl
  have hcalls : ∀ bucket id, heldIn (s.setPhase n (.ended o)).calls bucket id +
      (if c.countedIn bucket id then 1 else 0) = heldIn s.calls bucket id := by
    intro bucket id
    have := heldIn_setPhase hc (.ended o) bucket id
    rw [hheld, hended, Bool.and_true, Bool.and_false] at this
    exact this
  have hbound : ∀ bucket id, heldIn (s.setPhase n (.ended o)).calls bucket id ≤ limit.maxAttempts :=
    fun bucket id => ((Nat.le_add_right _ _).trans (hcalls bucket id).le).trans (h.bound bucket id)
  have hrefunding := forall_mem_modify (g := fun c => { c with phase := .ended o }) hc h.refunding
    fun _ heq => by cases heq
  have hlookup := forall_mem_modify (g := fun c => { c with phase := .ended o }) hc h.noLookup
    fun heq => by rcases ho with rfl | rfl <;> cases heq
  have hused := forall_mem_modify (g := fun c => { c with phase := .ended o }) hc h.used
    (h.used c hmem)
  cases hwindow : c.window with
  | none =>
    have hsame : s.refunded I now c = s.authCounter := by
      unfold Throttle.refunded
      rw [show c.attempt.bind (Table.get? · c.bucket) = none from hwindow]
      rfl
    rw [hsame]
    refine ⟨h.inv, hused, fun bucket w hw => ?_, hbound, hrefunding, hlookup⟩
    have := hcalls bucket w.id
    rw [AuthCall.countedIn, hwindow] at this
    rw [h.tally bucket w hw, ← this]
    simp
  | some id =>
    have hcounter : s.refunded I now c = (f s.authCounter now (.refund c.bucket id)).2 := by
      unfold Throttle.refunded
      rw [show c.attempt.bind (Table.get? · c.bucket) = some id from hwindow, hI.refund]
      rfl
    rw [hcounter]
    have heffect := A.effect (.refund c.bucket id) h.inv
    refine ⟨A.inv _ h.inv, fun c' hc' i hi => A.used_call _ h.inv (hused c' hc' i hi),
      fun bucket w' hw' => ?_, hbound, hrefunding, hlookup⟩
    have hcalls := hcalls bucket w'.id
    have hview := heffect.2 bucket
    rw [hw'] at hview
    rw [AuthCall.countedIn, hwindow] at hcalls
    split_ifs at hview with hb
    · subst hb
      obtain ⟨w, hw, hw₀⟩ := Option.map_eq_some_iff.mp hview.symm
      have htally := h.tally _ w hw
      by_cases hid : w.id = id
      · rw [Utils.Windows.refunded, if_pos hid] at hw₀
        subst hw₀
        simp only [hid] at hcalls htally ⊢
        simp at hcalls
        omega
      · rw [Utils.Windows.refunded, if_neg hid] at hw₀
        subst hw₀
        rw [htally, ← hcalls]
        simp [Ne.symm hid]
    · rw [h.tally bucket w' hview.symm, ← hcalls]
      simp [Ne.symm hb]

/-- **Every step keeps the tally.** -/
theorem Tallied.step (hI : I.Calls f) (henabled : limit.enabled = true) {e : AuthEvent}
    (h : Tallied A limit e.time s) : Tallied A limit e.time (s.step I limit e) := by
  unfold Throttle.step
  cases e.act with
  | call bucket candidate => exact h.begin hI henabled bucket candidate
  | lookup n result =>
    dsimp only
    cases hc : s.calls[n]?.filter fun c => c.phase = .looking with
    | none => exact h
    | some c =>
      obtain ⟨hc, hphase⟩ := Option.filter_eq_some_iff.mp hc
      exact h.lookup hc (of_decide_eq_true hphase) result
  | refund n =>
    dsimp only
    cases hc : s.calls[n]? with
    | none => exact h
    | some c =>
      rw [Option.elim_some, Throttle.refundOf]
      cases hphase : c.phase with
      | refunding o => exact h.refund hI hc hphase
      | _ => exact h
  | prune =>
    dsimp only
    rw [← hI.prune]
    exact h.of_counter (A.effect .prune h.inv).2

/-- No step takes a failure back. -/
theorem failures_step (I : Store σ) (limit : AuthRateLimit) (s : Throttle σ) (e : AuthEvent)
    (bucket id : Text) : failures s.calls bucket id ≤ failures (s.step I limit e).calls bucket id := by
  have hconcat : ∀ c, failures s.calls bucket id ≤ failures (s.calls ++ [c]) bucket id := by
    intro c
    rw [failures, failures, List.countP_append]
    exact Nat.le_add_right _ _
  have hset : ∀ {n : ℕ} {c : AuthCall} (phase : Phase), s.calls[n]? = some c →
      c.isFailure = false → failures s.calls bucket id ≤
        failures (s.setPhase n phase).calls bucket id := by
    intro n c phase hc hnot
    have := countP_modify (fun c => c.countedIn bucket id && c.isFailure)
      (fun c => { c with phase := phase }) hc
    simp only [hnot, Bool.and_false, Bool.false_eq_true, if_false, add_zero] at this
    exact (Nat.le_add_right _ _).trans this.ge
  unfold Throttle.step
  cases e.act with
  | call b candidate =>
    dsimp only
    unfold Throttle.begin Throttle.counted
    dsimp only
    split_ifs <;> exact hconcat _
  | lookup n result =>
    dsimp only
    cases hc : s.calls[n]?.filter fun c => c.phase = .looking with
    | none => exact le_rfl
    | some c =>
      obtain ⟨hc, hphase⟩ := Option.filter_eq_some_iff.mp hc
      refine hset _ hc ?_
      unfold AuthCall.isFailure
      rw [of_decide_eq_true hphase]
      rfl
  | refund n =>
    dsimp only
    cases hc : s.calls[n]? with
    | none => exact le_rfl
    | some c =>
      rw [Option.elim_some, Throttle.refundOf]
      cases hphase : c.phase with
      | refunding o =>
        refine hset (.ended o) hc ?_
        unfold AuthCall.isFailure
        rw [hphase]
        rfl
      | _ => exact le_rfl
  | prune => exact le_rfl

end Invariant

/-! ## Every interleaving -/

/-- The throttle after the events. -/
def afterAuth {σ : Type} (I : Store σ) (limit : AuthRateLimit) (start : σ) (events : List AuthEvent) :
    Throttle σ := final (fun s e => ((), s.step I limit e)) ⟨start, []⟩ events

/-- What the throttle keeps to. -/
structure BruteForceBound {σ : Type} {f : σ → Time → Op → Answer × σ} (A : Lawful f) (I : Store σ)
    (limit : AuthRateLimit) (start : σ) (events : List AuthEvent) : Prop where
  /-- The failures of a window are at most the limit. -/
  bounded : ∀ bucket id,
    failures (afterAuth I limit start events).calls bucket id ≤ limit.maxAttempts
  /-- A window holds all of its failures. -/
  recorded : ∀ bucket w now, lastTime AuthEvent.time 0 events ≤ now →
    A.view (afterAuth I limit start events).authCounter now bucket = some w →
      (failures (afterAuth I limit start events).calls bucket w.id : ℤ) ≤ w.count
  /-- No failure is taken back. -/
  kept : ∀ pre post bucket id, events = pre ++ post →
    failures (afterAuth I limit start pre).calls bucket id ≤
      failures (afterAuth I limit start events).calls bucket id
  noLookup : ∀ c ∈ (afterAuth I limit start events).calls,
    c.phase = .ended .rateLimited → c.lookedUp = false

section Runs

variable {σ : Type} {f : σ → Time → Op → Answer × σ} {A : Lawful f} {I : Store σ}
  {limit : AuthRateLimit} {start : σ} {events : List AuthEvent}

theorem tallied_afterAuth (hI : I.Calls f) (henabled : limit.enabled = true) (hstart : A.Inv 0 start)
    (hempty : ∀ k, A.view start 0 k = none) (ht : Ticks AuthEvent.time 0 events) :
    Tallied A limit (lastTime AuthEvent.time 0 events) (afterAuth I limit start events) := by
  refine invariant (Tallied A limit) (fun _ _ _ h hle _ => (h.mono hle).step hI henabled) ?_ ht
    fun _ _ => trivial
  exact ⟨hstart, fun _ hc => absurd hc List.not_mem_nil,
    fun k w hw => absurd ((hempty k).symm.trans hw) (by simp), fun _ _ => Nat.zero_le _,
    fun _ hc => absurd hc List.not_mem_nil, fun _ hc => absurd hc List.not_mem_nil⟩

theorem failures_append (pre post : List AuthEvent) (bucket id : Text) :
    failures (afterAuth I limit start pre).calls bucket id ≤
      failures (afterAuth I limit start (pre ++ post)).calls bucket id := by
  have hrun : ∀ (s : Throttle σ) (post : List AuthEvent), failures s.calls bucket id ≤
      failures (final (fun s e => ((), s.step I limit e)) s post).calls bucket id := by
    intro s post
    induction post generalizing s with
    | nil => exact le_rfl
    | cons e post ih => exact (failures_step I limit s e bucket id).trans (ih _)
  unfold afterAuth
  rw [final_append]
  exact hrun _ post

theorem bruteForceBound_of_lawful (hI : I.Calls f) (henabled : limit.enabled = true)
    (hstart : A.Inv 0 start) (hempty : ∀ k, A.view start 0 k = none)
    (ht : Ticks AuthEvent.time 0 events) : BruteForceBound A I limit start events := by
  have htally := tallied_afterAuth hI henabled hstart hempty ht
  refine ⟨fun bucket id => ?_, fun bucket w now hle hw => ?_, fun pre post bucket id heq => ?_,
    htally.noLookup⟩
  · exact (failures_le_heldIn _ bucket id).trans (htally.bound bucket id)
  · rw [htally.tally bucket w (Lawful.view_sub hle hw)]
    exact Int.ofNat_le.mpr (failures_le_heldIn _ bucket w.id)
  · rw [heq]
    exact failures_append pre post bucket id

end Runs

/-- `authCounter` in memory. -/
def memoryStore : Store MemoryWindowCounter :=
  ⟨fun c now keys options => c.take now keys options, fun c now key id => c.refund key now id,
    fun c now => c.prune now⟩

/-- `authCounter` in Redis. -/
def redisStore (uuid : ℕ → Text) : Store RedisStore :=
  ⟨fun s now keys options => ((s.hashes.take now (uuid s.takes) keys options).1,
      ⟨(s.hashes.take now (uuid s.takes) keys options).2, s.takes + 1⟩),
    fun s now key id => { s with hashes := s.hashes.refund key now id }, fun s _ => s⟩

/-- **Brute-force bound of SMTP AUTH.** -/
theorem bruteForceBound {uuid : ℕ → Text} (hne : ∀ n, uuid n ≠ [])
    (hinj : Function.Injective uuid) (limit : AuthRateLimit) (henabled : limit.enabled = true)
    (events : List AuthEvent) (ht : Ticks AuthEvent.time 0 events) :
    BruteForceBound MemoryWindowCounter.lawful memoryStore limit ⟨Table.empty, 0⟩ events ∧
      BruteForceBound (RedisStore.lawful hne hinj) (redisStore uuid) limit ⟨Table.empty, 0⟩
        events :=
  ⟨bruteForceBound_of_lawful ⟨fun _ _ _ _ => rfl, fun _ _ _ _ => rfl, fun _ _ => rfl⟩ henabled
      MemoryWindowCounter.inv_empty (fun _ => rfl) ht,
    bruteForceBound_of_lawful ⟨fun _ _ _ _ => rfl, fun _ _ _ _ => rfl, fun _ _ => rfl⟩ henabled
      RedisStore.inv_empty (fun _ => rfl) ht⟩

/-- Two guesses at once where one is allowed. -/
theorem bruteForceBound_parallel :
    let uuid : ℕ → Text := fun n => 'u' :: Text.decimal n
    let limit : AuthRateLimit := ⟨true, 1, 900, by decide⟩
    let events : List AuthEvent := [⟨0, .call ['b'] ['x']⟩, ⟨1, .call ['b'] ['y']⟩,
      ⟨2, .lookup 0 .missing⟩, ⟨3, .call ['b'] ['z']⟩]
    ∃ (hne : ∀ n, uuid n ≠ []) (hinj : Function.Injective uuid),
      BruteForceBound MemoryWindowCounter.lawful memoryStore limit ⟨Table.empty, 0⟩ events ∧
      BruteForceBound (RedisStore.lawful hne hinj) (redisStore uuid) limit ⟨Table.empty, 0⟩ events :=
  ⟨fun n => List.cons_ne_nil 'u' (Text.decimal n), fun _ _ h => Text.decimal_injective (List.cons.inj h).2,
    bruteForceBound _ _ _ rfl _ (by decide)⟩

end BunMail.SmtpSubmission
