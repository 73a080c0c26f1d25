import BunMail.Emails.QueueClaim
import BunMail.Lib.Run

/-!
# The queue worker

`queue-worker.service.ts`: a poll timer starts a poll, which claims as many rows as there are free
slots, starts their sends in the background and schedules the next poll.  `start` and `stop` come at
any time, also while a poll waits for its claim.

A step runs from one `await` to the next: a call of `start` or `stop`, a timer that fires, a claim that
resolves or rejects, the end of a poll, and the end of a send.
-/

namespace BunMail.Emails.Worker

/-- `QueueLimits`. -/
structure QueueLimits where
  batchSize : ℕ
  maxConcurrentSends : ℕ

/-- A poll waits for the claim of so many rows, or is past its cycle and about to end. -/
inductive Poll
  | claiming (requested : ℤ)
  | ending
  deriving DecidableEq

/-- How a send ends. -/
inductive SendEnd
  | finished | threw
  deriving DecidableEq

/-- The variables of the module (`inFlight`, `running`, `polling`, `pollTimer`), and what the event
loop holds: the pending timers, the polls that have not ended and the sends that have not finished. -/
structure State where
  inFlight : ℤ
  running : Bool
  polling : Bool
  pollTimer : Option ℕ
  timers : List ℕ
  nextTimer : ℕ
  polls : List Poll
  sends : List Claim
  deriving DecidableEq

/-- Before the first `start`. -/
def idle : State :=
  { inFlight := 0, running := false, polling := false, pollTimer := none, timers := []
    nextTimer := 0, polls := [], sends := [] }

/-- `schedulePoll`. -/
def schedulePoll (s : State) : State :=
  if s.running then
    { s with
      pollTimer := some s.nextTimer
      timers := s.timers ++ [s.nextTimer]
      nextTimer := s.nextTimer + 1 }
  else s

/-- `start`. -/
def start (s : State) : State :=
  if s.running then s
  else if s.polling then { s with running := true }
  else schedulePoll { s with running := true }

/-- `stop`. -/
def stop (s : State) : State :=
  if s.running then
    { s with
      running := false
      pollTimer := none
      timers := s.pollTimer.elim s.timers s.timers.erase }
  else s

/-- `startQueueCycle` up to its `await`: what the poll waits for. -/
def startQueueCycle (limits : QueueLimits) (s : State) : Poll :=
  let free : ℤ := limits.maxConcurrentSends - s.inFlight
  if free ≤ 0 then .ending else .claiming (min limits.batchSize free)

/-- `poll` up to its `await`. -/
def poll (limits : QueueLimits) (s : State) : State :=
  { s with polling := true, polls := s.polls ++ [startQueueCycle limits s] }

/-- The callback of a poll timer. -/
def fire (limits : QueueLimits) (timer : ℕ) (s : State) : State :=
  poll limits { s with timers := s.timers.erase timer, pollTimer := none }

/-- One turn of `batch.map`. -/
def startSend (s : State) (claim : Claim) : State :=
  { s with inFlight := s.inFlight + 1, sends := s.sends ++ [claim] }

/-- The claim of poll number `i` resolves. -/
def claimed (i : ℕ) (batch : List Claim) (s : State) : State :=
  batch.foldl startSend { s with polls := s.polls.set i .ending }

/-- The claim of poll number `i` rejects: the error is logged. -/
def claimFailed (i : ℕ) (s : State) : State := { s with polls := s.polls.set i .ending }

/-- The `finally` of poll number `i`. -/
def endPoll (i : ℕ) (s : State) : State :=
  schedulePoll { s with polling := false, polls := s.polls.eraseIdx i }

/-- The `finally` of send number `i`, which an error reaches through the `catch`. -/
def endSend (i : ℕ) (_ : SendEnd) (s : State) : State :=
  { s with inFlight := s.inFlight - 1, sends := s.sends.eraseIdx i }

/-- What can happen next. -/
inductive Action
  | start
  | stop
  | fire (timer : ℕ)
  | claimed (i : ℕ) (batch : List Claim)
  | claimFailed (i : ℕ)
  | endPoll (i : ℕ)
  | endSend (i : ℕ) (how : SendEnd)

def step (limits : QueueLimits) (s : State) : Action → State
  | .start => start s
  | .stop => stop s
  | .fire timer => fire limits timer s
  | .claimed i batch => claimed i batch s
  | .claimFailed i => claimFailed i s
  | .endPoll i => endPoll i s
  | .endSend i how => endSend i how s

/-- The poll waits for a claim that may give `rows` rows. -/
def Poll.admits (rows : ℕ) : Poll → Bool
  | .claiming requested => rows ≤ requested
  | .ending => false

/-- Whether an action can happen.  A claim resolves with at most as many rows as were requested. -/
def Enabled (s : State) : Action → Prop
  | .start => True
  | .stop => True
  | .fire timer => timer ∈ s.timers
  | .claimed i batch => ((s.polls[i]?).any fun p => p.admits batch.length) = true
  | .claimFailed i => ∃ p ∈ s.polls[i]?, p ≠ .ending
  | .endPoll i => s.polls[i]? = some .ending
  | .endSend i _ => i < s.sends.length

instance (s : State) : (a : Action) → Decidable (Enabled s a)
  | .start => inferInstanceAs (Decidable True)
  | .stop => inferInstanceAs (Decidable True)
  | .fire timer => inferInstanceAs (Decidable (timer ∈ s.timers))
  | .claimed _ _ => inferInstanceAs (Decidable (_ = true))
  | .claimFailed i => inferInstanceAs (Decidable (∃ p ∈ s.polls[i]?, p ≠ .ending))
  | .endPoll i => inferInstanceAs (Decidable (s.polls[i]? = some .ending))
  | .endSend i _ => inferInstanceAs (Decidable (i < s.sends.length))

/-! ## The invariant -/

/-- One poll or one timer keeps a started worker going; a claim only asks for slots that are free. -/
structure Inv (limits : QueueLimits) (s : State) : Prop where
  counted : s.inFlight = s.sends.length
  capped : s.inFlight ≤ limits.maxConcurrentSends
  room : ∀ requested, .claiming requested ∈ s.polls →
    s.inFlight + requested ≤ limits.maxConcurrentSends
  single : s.polls.length = if s.polling then 1 else 0
  timer : s.timers = s.pollTimer.toList
  alive : s.running = true → s.polls.length + s.timers.length = 1
  quiet : s.running = false → s.timers = []

variable {limits : QueueLimits} {s : State}

theorem inv_idle : Inv limits idle where
  counted := rfl
  capped := Int.natCast_nonneg _
  room _ h := absurd h List.not_mem_nil
  single := rfl
  timer := rfl
  alive h := absurd h (by decide)
  quiet _ := rfl

/-- With no poll and no timer left, a poll may be scheduled. -/
theorem inv_schedulePoll (hcounted : s.inFlight = s.sends.length)
    (hcapped : s.inFlight ≤ limits.maxConcurrentSends) (hpolls : s.polls = [])
    (hpolling : s.polling = false) (htimers : s.timers = []) (hstopped : s.running = false →
      s.pollTimer = none) : Inv limits (schedulePoll s) := by
  unfold schedulePoll
  by_cases hrunning : s.running = true
  · rw [if_pos hrunning]
    refine ⟨hcounted, hcapped, ?_, ?_, ?_, ?_, ?_⟩
    · intro _ h
      rw [hpolls] at h
      exact absurd h List.not_mem_nil
    · show s.polls.length = if s.polling = true then 1 else 0
      rw [hpolls, hpolling]
      rfl
    · show s.timers ++ [s.nextTimer] = [s.nextTimer]
      rw [htimers, List.nil_append]
    · intro _
      show s.polls.length + (s.timers ++ [s.nextTimer]).length = 1
      rw [hpolls, htimers]
      rfl
    · intro h
      exact absurd (hrunning.symm.trans h) (by decide)
  · rw [if_neg hrunning]
    have hstop : s.running = false := (Bool.not_eq_true _).mp hrunning
    refine ⟨hcounted, hcapped, ?_, ?_, ?_, fun h => absurd h hrunning, fun _ => htimers⟩
    · intro _ h
      rw [hpolls] at h
      exact absurd h List.not_mem_nil
    · rw [hpolls, hpolling]
      rfl
    · rw [htimers, hstopped hstop]
      rfl

theorem Inv.start (h : Inv limits s) : Inv limits (start s) := by
  unfold Worker.start
  by_cases hrunning : s.running = true
  · rw [if_pos hrunning]
    exact h
  · rw [if_neg hrunning]
    have htimers := h.quiet ((Bool.not_eq_true _).mp hrunning)
    by_cases hpolling : s.polling = true
    · rw [if_pos hpolling]
      refine ⟨h.counted, h.capped, h.room, h.single, h.timer, fun _ => ?_, fun hr => ?_⟩
      · show s.polls.length + s.timers.length = 1
        rw [h.single, if_pos hpolling, htimers]
        rfl
      · cases hr
    · rw [if_neg hpolling]
      have hpolls : s.polls = [] := by
        have hsingle := h.single
        rw [if_neg hpolling] at hsingle
        exact List.length_eq_zero_iff.mp hsingle
      exact inv_schedulePoll h.counted h.capped hpolls ((Bool.not_eq_true _).mp hpolling) htimers
        fun hr => by cases hr

theorem Inv.stop (h : Inv limits s) : Inv limits (stop s) := by
  unfold Worker.stop
  by_cases hrunning : s.running = true
  · rw [if_pos hrunning]
    have htimers : s.pollTimer.elim s.timers s.timers.erase = [] := by
      rw [h.timer]
      cases s.pollTimer with
      | none => rfl
      | some t => simp
    refine ⟨h.counted, h.capped, h.room, h.single, htimers, fun hr => ?_, fun _ => htimers⟩
    cases hr
  · rw [if_neg hrunning]
    exact h

theorem Inv.fire (h : Inv limits s) {timer : ℕ} (ht : timer ∈ s.timers) :
    Inv limits (fire limits timer s) := by
  have hrunning : s.running = true := by
    by_contra hr
    rw [h.quiet ((Bool.not_eq_true _).mp hr)] at ht
    exact List.not_mem_nil ht
  have htimers : s.timers = [timer] := by
    have htimer := h.timer
    cases hp : s.pollTimer with
    | none =>
      rw [htimer, hp] at ht
      exact absurd ht List.not_mem_nil
    | some t =>
      rw [hp, Option.toList_some] at htimer
      rw [htimer] at ht ⊢
      rw [List.mem_singleton.mp ht]
  have hpolls : s.polls = [] := by
    have halive := h.alive hrunning
    rw [htimers, List.length_singleton] at halive
    exact List.length_eq_zero_iff.mp (Nat.succ_injective halive)
  have herase : s.timers.erase timer = [] := by
    rw [htimers]
    simp
  unfold Worker.fire poll
  refine ⟨h.counted, h.capped, ?_, ?_, herase, ?_, fun _ => herase⟩
  · intro requested hmem
    have hmem' : .claiming requested ∈ s.polls ++ [startQueueCycle limits s] := hmem
    rw [hpolls, List.nil_append, List.mem_singleton] at hmem'
    unfold startQueueCycle at hmem'
    dsimp only at hmem'
    split_ifs at hmem' with hfree
    have hrequested := Poll.claiming.inj hmem'
    have hle := min_le_right (limits.batchSize : ℤ) (limits.maxConcurrentSends - s.inFlight)
    show s.inFlight + requested ≤ limits.maxConcurrentSends
    omega
  · show (s.polls ++ [_]).length = 1
    rw [hpolls]
    rfl
  · intro _
    show (s.polls ++ [_]).length + (s.timers.erase timer).length = 1
    rw [hpolls, herase]
    rfl

/-- What the turns of `batch.map` do. -/
theorem foldl_startSend (batch : List Claim) (s : State) : batch.foldl startSend s =
    { s with inFlight := s.inFlight + batch.length, sends := s.sends ++ batch } := by
  induction batch generalizing s with
  | nil =>
    rw [List.foldl_nil, List.append_nil, List.length_nil, Int.natCast_zero, add_zero]
  | cons claim batch ih =>
    rw [List.foldl_cons, ih]
    unfold startSend
    rw [List.append_assoc, List.length_cons, Nat.cast_succ, add_assoc, add_comm 1]
    rfl

theorem Inv.claimed (h : Inv limits s) {i : ℕ} {batch : List Claim}
    (hi : ((s.polls[i]?).any fun p => p.admits batch.length) = true) :
    Inv limits (claimed i batch s) := by
  obtain ⟨p, hp, hadmits⟩ := (Option.any_eq_true _ _).mp hi
  have hmem := List.mem_of_getElem? hp
  have hone : s.polls = [p] := by
    have hsingle := h.single
    obtain ⟨q, hq⟩ : ∃ q, s.polls = [q] := by
      refine List.length_eq_one_iff.mp ?_
      have hpos := List.length_pos_of_mem hmem
      split_ifs at hsingle <;> omega
    rw [hq] at hmem ⊢
    rw [List.mem_singleton.mp hmem]
  unfold Worker.claimed
  rw [foldl_startSend]
  have hset : s.polls.set i .ending = [.ending] := by
    rw [hone] at hp ⊢
    cases i with
    | zero => rfl
    | succ i => cases hp
  cases p with
  | ending => cases hadmits
  | claiming requested =>
    have hroom := h.room requested hmem
    have hrows : (batch.length : ℤ) ≤ requested := of_decide_eq_true hadmits
    refine ⟨?_, ?_, ?_, ?_, h.timer, ?_, h.quiet⟩
    · show s.inFlight + batch.length = ((s.sends ++ batch).length : ℤ)
      rw [h.counted, List.length_append, Nat.cast_add]
    · show s.inFlight + batch.length ≤ limits.maxConcurrentSends
      omega
    · intro k hk
      have hk' : Poll.claiming k ∈ s.polls.set i .ending := hk
      rw [hset] at hk'
      cases List.mem_singleton.mp hk'
    · show (s.polls.set i .ending).length = _
      rw [List.length_set]
      exact h.single
    · intro hr
      show (s.polls.set i .ending).length + s.timers.length = 1
      rw [List.length_set]
      exact h.alive hr

theorem Inv.claimFailed (h : Inv limits s) {i : ℕ} : Inv limits (claimFailed i s) := by
  unfold Worker.claimFailed
  refine ⟨h.counted, h.capped, fun k hk => h.room k ?_, ?_, h.timer, ?_, h.quiet⟩
  · exact (List.mem_or_eq_of_mem_set hk).resolve_right fun heq => by cases heq
  · show (s.polls.set i .ending).length = _
    rw [List.length_set]
    exact h.single
  · intro hr
    show (s.polls.set i .ending).length + s.timers.length = 1
    rw [List.length_set]
    exact h.alive hr

theorem Inv.endPoll (h : Inv limits s) {i : ℕ} (hi : s.polls[i]? = some .ending) :
    Inv limits (endPoll i s) := by
  have hpos := List.length_pos_of_mem (List.mem_of_getElem? hi)
  have hlength : s.polls.length = 1 := by
    have hsingle := h.single
    split_ifs at hsingle <;> omega
  have htimers : s.timers = [] := by
    by_cases hr : s.running = true
    · have halive := h.alive hr
      exact List.length_eq_zero_iff.mp (by omega)
    · exact h.quiet ((Bool.not_eq_true _).mp hr)
  have hlt := (List.getElem?_eq_some_iff.mp hi).1
  have hpolls : s.polls.eraseIdx i = [] := by
    refine List.length_eq_zero_iff.mp ?_
    rw [List.length_eraseIdx_of_lt hlt, hlength]
  unfold Worker.endPoll
  refine inv_schedulePoll h.counted h.capped hpolls rfl htimers fun _ => ?_
  have htimer := h.timer
  rw [htimers] at htimer
  exact Option.toList_eq_nil_iff.mp htimer.symm

theorem Inv.endSend (h : Inv limits s) {i : ℕ} (how : SendEnd) (hi : i < s.sends.length) :
    Inv limits (endSend i how s) := by
  have hcounted := h.counted
  have hcapped := h.capped
  unfold Worker.endSend
  refine ⟨?_, ?_, fun k hk => ?_, h.single, h.timer, h.alive, h.quiet⟩
  · show s.inFlight - 1 = ((s.sends.eraseIdx i).length : ℤ)
    rw [List.length_eraseIdx_of_lt hi]
    omega
  · show s.inFlight - 1 ≤ limits.maxConcurrentSends
    omega
  · have hroom := h.room k hk
    show s.inFlight - 1 + k ≤ limits.maxConcurrentSends
    omega

/-- **Every step keeps the invariant.** -/
theorem Inv.step (h : Inv limits s) {a : Action} (ha : Enabled s a) : Inv limits (step limits s a) := by
  cases a with
  | start => exact h.start
  | stop => exact h.stop
  | fire timer => exact h.fire ha
  | claimed i batch => exact h.claimed ha
  | claimFailed i => exact h.claimFailed
  | endPoll i => exact h.endPoll ha
  | endSend i how => exact h.endSend how ha

/-! ## Runs -/

/-- What holds of a worker at any time. -/
structure Steady (limits : QueueLimits) (s : State) : Prop where
  inFlight_eq : s.inFlight = s.sends.length
  inFlight_le : s.inFlight ≤ limits.maxConcurrentSends
  polls_le : s.polls.length ≤ 1
  polls_or_timer : s.running = true →
    s.polls.length = 1 ∧ s.timers = [] ∨ s.polls = [] ∧ s.timers.length = 1
  timers_stopped : s.running = false → s.polls = [] → s.timers = []

theorem Inv.steady (h : Inv limits s) : Steady limits s where
  inFlight_eq := h.counted
  inFlight_le := h.capped
  polls_le := by
    rw [h.single]
    split_ifs <;> omega
  polls_or_timer hr := by
    have halive := h.alive hr
    by_cases hpolls : s.polls = []
    · rw [hpolls, List.length_nil] at halive
      exact .inr ⟨hpolls, by omega⟩
    · have hpos := List.length_pos_iff.mpr hpolls
      exact .inl ⟨by omega, List.length_eq_zero_iff.mp (by omega)⟩
  timers_stopped hr _ := h.quiet hr

/-- **The worker keeps its cap and neither stops nor doubles by itself**, in whatever order calls, timers,
claims and sends come. -/
theorem run_steady {as : List Action} (h : Run.Along (step limits) Enabled idle as) :
    Steady limits (Run.run (step limits) idle as) :=
  (Run.invariant (Inv limits) (fun _ _ hs ha => hs.step ha) inv_idle h).steady

/-- A worker stopped and started again while its poll waits for a claim. -/
theorem run_steady_restarted :
    Steady ⟨5, 2⟩ (Run.run (step ⟨5, 2⟩) idle
      [.start, .fire 0, .stop, .start, .claimed 0 [⟨"1".toList, 1⟩, ⟨"2".toList, 1⟩], .endPoll 0,
        .endSend 0 .threw, .fire 1]) :=
  run_steady (by decide)

end BunMail.Emails.Worker
