import BunMail.Lib.Run
import BunMail.Lib.Text
import Mathlib.Data.List.Nodup
import Mathlib.Logic.Function.Basic

/-!
# The semaphores of the MX hosts

`mx-throttle.ts` without a shared store: a counting semaphore for each key.  A call takes a free slot
or waits in line, and who is done hands its slot to the first in line without touching the counter.

The lock objects live on a heap, and the table names the object of a key: a call keeps the object it
found when it came, whatever happens to the table.  A step runs from one `await` to the next: a call
up to its function or to its place in line, the wake-up of a call that was handed a slot, and the
`finally` of a call whose function resolved or threw.
-/

namespace BunMail.Utils.MxLocks

/-- `MxLock`.  The resolvers in the queue are named by their calls. -/
structure MxLock where
  active : ℤ
  queue : List ℕ
  deriving DecidableEq

/-- A call is in line, was handed a slot, or runs its function. -/
inductive Phase
  | waiting | handed | running
  deriving DecidableEq

/-- A call of `withMxLock` that has not ended, and the lock object it holds. -/
structure Call where
  id : ℕ
  key : Text
  lock : ℕ
  phase : Phase
  deriving DecidableEq

/-- How the function of a call ends. -/
inductive Settled
  | resolved | threw
  deriving DecidableEq

/-- The table `locks`, the lock objects, and the calls that have not ended.  What happened so far: the
keys of the calls, in the order they came, and the calls that got a slot, in the order they got it. -/
structure State where
  locks : Text → Option ℕ
  heap : ℕ → MxLock
  nextLock : ℕ
  calls : List Call
  called : List Text
  granted : List ℕ

/-- No call was made. -/
def idle : State :=
  { locks := fun _ => none, heap := fun _ => ⟨0, []⟩, nextLock := 0, calls := [], called := []
    granted := [] }

/-- The lock object of a key, made when there is none. -/
def openLock (key : Text) (s : State) : ℕ × State :=
  match s.locks key with
  | some lock => (lock, s)
  | none => (s.nextLock, { s with
      locks := Function.update s.locks key (some s.nextLock)
      heap := Function.update s.heap s.nextLock ⟨0, []⟩
      nextLock := s.nextLock + 1 })

/-- A call takes a slot of its lock, or gets in line. -/
def takeSlot (max : ℕ) (key : Text) (lock : ℕ) (s : State) : State :=
  let id := s.called.length
  if (s.heap lock).active < max then
    { s with
      heap := Function.update s.heap lock { s.heap lock with active := (s.heap lock).active + 1 }
      calls := s.calls ++ [⟨id, key, lock, .running⟩]
      called := s.called ++ [key]
      granted := s.granted ++ [id] }
  else
    { s with
      heap := Function.update s.heap lock { s.heap lock with queue := (s.heap lock).queue ++ [id] }
      calls := s.calls ++ [⟨id, key, lock, .waiting⟩]
      called := s.called ++ [key] }

/-- `withMxLock` up to its function or its `await`. -/
def withMxLock (max : ℕ) (key : Text) (s : State) : State :=
  takeSlot max key (openLock key s).1 (openLock key s).2

/-- The call goes over to a phase. -/
def Call.goOn (id : ℕ) (phase : Phase) (c : Call) : Call := if c.id = id then { c with phase } else c

/-- A call that was handed a slot goes on. -/
def wake (id : ℕ) (s : State) : State := { s with calls := s.calls.map (Call.goOn id .running) }

/-- The slot goes to the first in line, or is free. -/
def passOn (c : Call) (s : State) : State :=
  match (s.heap c.lock).queue with
  | next :: rest =>
    { s with
      heap := Function.update s.heap c.lock { s.heap c.lock with queue := rest }
      calls := s.calls.map (Call.goOn next .handed)
      granted := s.granted ++ [next] }
  | [] =>
    { s with
      heap := Function.update s.heap c.lock
        { s.heap c.lock with active := (s.heap c.lock).active - 1 } }

/-- The entry of a drained lock is deleted. -/
def tidy (c : Call) (s : State) : State :=
  { s with
    locks := if (s.heap c.lock).active = 0 ∧ (s.heap c.lock).queue = [] then
      Function.update s.locks c.key none else s.locks }

/-- The call is over. -/
def leave (id : ℕ) (s : State) : State := { s with calls := s.calls.filter fun c => c.id ≠ id }

/-- The `finally` of a call. -/
def release (c : Call) (s : State) : State := leave c.id (tidy c (passOn c s))

/-- What can happen next. -/
inductive Action
  | call (key : Text)
  | wake (id : ℕ)
  | settle (id : ℕ) (how : Settled)

/-- The call of this number in this phase. -/
def inPhase (s : State) (id : ℕ) (phase : Phase) : Option Call :=
  s.calls.find? fun c => c.id = id && c.phase = phase

def step (max : ℕ) (s : State) : Action → State
  | .call key => withMxLock max key s
  | .wake id => wake id s
  | .settle id _ => (inPhase s id .running).elim s fun c => release c s

/-- Only a call that was handed a slot wakes up, and only a running function settles. -/
def Enabled (s : State) : Action → Prop
  | .call _ => True
  | .wake id => (inPhase s id .handed).isSome = true
  | .settle id _ => (inPhase s id .running).isSome = true

instance (s : State) : (a : Action) → Decidable (Enabled s a)
  | .call _ => inferInstanceAs (Decidable True)
  | .wake _ => inferInstanceAs (Decidable (_ = true))
  | .settle _ _ => inferInstanceAs (Decidable (_ = true))

/-- The key of the call an action is about. -/
def Action.key (s : State) : Action → Option Text
  | .call key => some key
  | .wake id => s.called[id]?
  | .settle id _ => s.called[id]?

/-! ## What is seen of a key -/

/-- The unfinished calls of a key. -/
def ofKey (key : Text) (calls : List Call) : List Call := calls.filter fun c => c.key = key

/-- The calls in line. -/
def waiters (calls : List Call) : List ℕ := (calls.filter fun c => c.phase = .waiting).map Call.id

/-- The calls that run their function or were handed a slot. -/
def holders (calls : List Call) : List Call := calls.filter fun c => c.phase ≠ .waiting

/-- The calls that run their function. -/
def running (calls : List Call) : List Call := calls.filter fun c => c.phase = .running

/-- Every call of a key, in the order they came. -/
def calledOf (key : Text) (s : State) : List ℕ :=
  (List.range s.called.length).filter fun id => s.called[id]? = some key

/-- The calls of a key that got a slot, in the order they got it. -/
def grantedOf (key : Text) (s : State) : List ℕ :=
  s.granted.filter fun id => s.called[id]? = some key

/-! ## One key -/

/-- A lock counts the calls that hold a slot and queues those in line, which there are only when every
slot is taken. -/
structure Counts (max : ℕ) (lock : MxLock) (calls : List Call) : Prop where
  active : lock.active = (holders calls).length
  queue : lock.queue = waiters calls
  capped : lock.active ≤ max
  full : lock.queue ≠ [] → lock.active = max

/-- A key has a lock exactly while a call on it has not ended. -/
structure KeyInv (max : ℕ) (lock : Option MxLock) (calls : List Call) : Prop where
  used : lock = none ↔ calls = []
  counts : ∀ l ∈ lock, Counts max l calls

section Key

variable {max : ℕ} {lock : MxLock} {calls : List Call}

theorem counts_nil : Counts max ⟨0, []⟩ [] where
  active := rfl
  queue := rfl
  capped := Int.natCast_nonneg _
  full h := absurd rfl h

theorem KeyInv.getD {entry : Option MxLock} (h : KeyInv max entry calls) :
    Counts max (entry.getD ⟨0, []⟩) calls := by
  cases entry with
  | none =>
    rw [h.used.mp rfl]
    exact counts_nil
  | some lock => exact h.counts lock rfl

theorem holders_append (calls : List Call) (c : Call) :
    holders (calls ++ [c]) = holders calls ++ holders [c] := List.filter_append _ _

theorem waiters_append (calls : List Call) (c : Call) :
    waiters (calls ++ [c]) = waiters calls ++ waiters [c] := by
  unfold waiters
  rw [List.filter_append, List.map_append]

/-- A call takes a free slot: then nobody was in line. -/
theorem Counts.take (h : Counts max lock calls) (hfree : lock.active < max) (id : ℕ) (key : Text)
    (ref : ℕ) : Counts max { lock with active := lock.active + 1 }
      (calls ++ [⟨id, key, ref, .running⟩]) where
  active := by
    rw [holders_append, List.length_append, h.active]
    rfl
  queue := by
    rw [waiters_append]
    exact h.queue.trans (List.append_nil _).symm
  capped := by
    show lock.active + 1 ≤ max
    omega
  full hq := absurd (h.full hq) hfree.ne

/-- A call gets in line: then every slot is taken. -/
theorem Counts.wait (h : Counts max lock calls) (hfull : ¬ lock.active < max) (id : ℕ) (key : Text)
    (ref : ℕ) : Counts max { lock with queue := lock.queue ++ [id] }
      (calls ++ [⟨id, key, ref, .waiting⟩]) where
  active := by
    rw [holders_append]
    exact h.active.trans (congrArg _ (congrArg List.length (List.append_nil _).symm))
  queue := by
    rw [waiters_append, h.queue]
    rfl
  capped := h.capped
  full _ := le_antisymm h.capped (not_lt.mp hfull)

/-- Every call holds a slot or is in line. -/
theorem length_holders_add (calls : List Call) :
    (holders calls).length + (waiters calls).length = calls.length := by
  unfold holders waiters
  rw [List.length_map, add_comm, ← List.countP_eq_length_filter, ← List.countP_eq_length_filter]
  have h : calls.length = _ :=
    List.length_eq_countP_add_countP fun c : Call => decide (c.phase = .waiting)
  rw [h]
  refine congrArg _ (List.countP_congr fun c _ => ?_)
  simp

/-- A lock that counts its calls is deleted exactly when there are none. -/
theorem Counts.keyInv (h : Counts max lock calls) :
    KeyInv max (if lock.active = 0 ∧ lock.queue = [] then none else some lock) calls := by
  by_cases hdrained : lock.active = 0 ∧ lock.queue = []
  · rw [if_pos hdrained]
    have hcalls : calls = [] := by
      have hlength := length_holders_add calls
      have hactive := h.active
      rw [← h.queue, hdrained.2, List.length_nil] at hlength
      exact List.length_eq_zero_iff.mp (by omega)
    exact ⟨iff_of_true rfl hcalls, fun _ hl => by cases hl⟩
  · rw [if_neg hdrained]
    refine ⟨iff_of_false (by rintro ⟨⟩) fun hcalls => hdrained ?_, fun l hl => ?_⟩
    · subst hcalls
      exact ⟨h.active, h.queue⟩
    · cases hl
      exact h

theorem id_goOn {id : ℕ} {phase : Phase} {c : Call} : (c.goOn id phase).id = c.id := by
  unfold Call.goOn
  split_ifs <;> rfl

theorem key_goOn {id : ℕ} {phase : Phase} {c : Call} : (c.goOn id phase).key = c.key := by
  unfold Call.goOn
  split_ifs <;> rfl

theorem lock_goOn {id : ℕ} {phase : Phase} {c : Call} : (c.goOn id phase).lock = c.lock := by
  unfold Call.goOn
  split_ifs <;> rfl

/-- The line after a call has gone over to a phase in which it holds a slot. -/
theorem waiters_goOn {id : ℕ} {phase : Phase} (hphase : phase ≠ .waiting) (calls : List Call) :
    waiters (calls.map (Call.goOn id phase)) = (waiters calls).filter fun i => i ≠ id := by
  unfold waiters
  rw [List.filter_map, List.map_map, List.filter_map, List.filter_filter]
  have hid : Call.id ∘ Call.goOn id phase = Call.id := funext fun c => id_goOn
  rw [hid]
  refine congrArg _ (List.filter_congr fun c _ => ?_)
  unfold Call.goOn
  simp only [Function.comp_apply]
  by_cases hc : c.id = id
  · rw [if_pos hc]
    simp [hc, hphase]
  · rw [if_neg hc]
    simp [hc]

variable {c : Call}

theorem mem_leave {id : ℕ} {x : Call} : x ∈ calls.filter (fun x => x.id ≠ id) ↔ x ∈ calls ∧ x.id ≠ id := by
  rw [List.mem_filter, decide_eq_true_iff]

theorem eq_of_id_eq (hids : (calls.map Call.id).Nodup) {x y : Call} (hx : x ∈ calls) (hy : y ∈ calls)
    (h : x.id = y.id) : x = y := List.inj_on_of_nodup_map hids hx hy h

/-- Who holds a slot and leaves was not in line. -/
theorem waiters_leave (hids : (calls.map Call.id).Nodup) (hc : c ∈ calls) (hphase : c.phase ≠ .waiting) :
    waiters (calls.filter fun x => x.id ≠ c.id) = waiters calls := by
  unfold waiters
  rw [List.filter_filter]
  refine congrArg _ (List.filter_congr fun x hx => ?_)
  rw [Bool.and_eq_left_iff_imp]
  intro hwait
  rw [decide_eq_true_iff] at hwait ⊢
  intro heq
  rw [eq_of_id_eq hids hx hc heq] at hwait
  exact hphase hwait

theorem length_leave (hids : (calls.map Call.id).Nodup) (hc : c ∈ calls) :
    (calls.filter fun x => x.id ≠ c.id).length + 1 = calls.length := by
  have hcount : calls.countP (fun x => x.id = c.id) = 1 := by
    have hone := List.count_eq_one_of_mem hids (List.mem_map_of_mem hc)
    rw [List.count, List.countP_map] at hone
    rw [← hone]
    refine List.countP_congr fun x _ => ?_
    simp
  have h : calls.length = _ := List.length_eq_countP_add_countP fun x : Call => decide (x.id = c.id)
  rw [hcount] at h
  rw [h, ← List.countP_eq_length_filter, add_comm]
  refine congrArg _ (List.countP_congr fun x _ => ?_)
  simp

/-- A slot is handed to the first in line: the calls that hold one stay as many. -/
theorem Counts.handOver (h : Counts max lock calls) (hids : (calls.map Call.id).Nodup) (hc : c ∈ calls)
    (hphase : c.phase ≠ .waiting) {next : ℕ} {rest : List ℕ} (hqueue : lock.queue = next :: rest) :
    Counts max { lock with queue := rest }
      ((calls.map (Call.goOn next .handed)).filter fun x => x.id ≠ c.id) := by
  have hmapids : ((calls.map (Call.goOn next .handed)).map Call.id) = calls.map Call.id := by
    rw [List.map_map]
    exact List.map_congr_left fun _ _ => id_goOn
  have hmem : c.goOn next .handed ∈ calls.map (Call.goOn next .handed) := List.mem_map_of_mem hc
  have hphase' : (c.goOn next .handed).phase ≠ .waiting := by
    unfold Call.goOn
    split_ifs
    · exact fun hp => by cases hp
    · exact hphase
  have hwaiters : waiters ((calls.map (Call.goOn next .handed)).filter fun x => x.id ≠ c.id) = rest := by
    have hleave := waiters_leave (hmapids ▸ hids) hmem hphase'
    rw [id_goOn] at hleave
    have hnodup : (next :: rest).Nodup := by
      rw [← hqueue, h.queue]
      exact hids.sublist (List.filter_sublist.map _)
    rw [hleave, waiters_goOn (by decide), ← h.queue, hqueue,
      List.filter_cons_of_neg (by simp)]
    refine List.filter_eq_self.mpr fun i hi => decide_eq_true ?_
    rintro rfl
    exact (List.nodup_cons.mp hnodup).1 hi
  refine ⟨?_, hwaiters.symm, h.capped, fun _ => h.full (by
    rw [hqueue]
    exact List.cons_ne_nil _ _)⟩
  have hlength := length_leave (hmapids ▸ hids) hmem
  have hsum := length_holders_add
    ((calls.map (Call.goOn next .handed)).filter fun x => x.id ≠ c.id)
  have hsum' := length_holders_add calls
  rw [id_goOn, List.length_map] at hlength
  rw [← h.queue, hqueue, List.length_cons] at hsum'
  rw [hwaiters] at hsum
  have hactive := h.active
  show lock.active = _
  omega

/-- Nobody is in line: a slot becomes free. -/
theorem Counts.free (h : Counts max lock calls) (hids : (calls.map Call.id).Nodup) (hc : c ∈ calls)
    (hphase : c.phase ≠ .waiting) (hqueue : lock.queue = []) :
    Counts max { lock with active := lock.active - 1 } (calls.filter fun x => x.id ≠ c.id) := by
  have hwaiters := waiters_leave hids hc hphase
  have hlength := length_leave hids hc
  have hsum := length_holders_add (calls.filter fun x => x.id ≠ c.id)
  have hsum' := length_holders_add calls
  rw [hwaiters] at hsum
  have hactive := h.active
  have hcapped := h.capped
  refine ⟨?_, h.queue.trans hwaiters.symm, ?_, fun hq => absurd hqueue hq⟩
  · show lock.active - 1 = _
    omega
  · show lock.active - 1 ≤ max
    omega

/-- A call that was handed a slot goes on. -/
theorem Counts.wake (h : Counts max lock calls) (hids : (calls.map Call.id).Nodup) (hc : c ∈ calls)
    (hphase : c.phase ≠ .waiting) :
    Counts max lock (calls.map (Call.goOn c.id .running)) := by
  have hwaiters : waiters (calls.map (Call.goOn c.id .running)) = waiters calls := by
    rw [waiters_goOn (by decide)]
    refine List.filter_eq_self.mpr fun i hi => decide_eq_true ?_
    rintro rfl
    obtain ⟨x, hx, hxid⟩ := List.mem_map.mp hi
    obtain ⟨hx, hwait⟩ := List.mem_filter.mp hx
    rw [eq_of_id_eq hids hx hc hxid] at hwait
    exact hphase (of_decide_eq_true hwait)
  have hsum := length_holders_add (calls.map (Call.goOn c.id .running))
  have hsum' := length_holders_add calls
  rw [hwaiters, List.length_map] at hsum
  refine ⟨?_, h.queue.trans hwaiters.symm, h.capped, h.full⟩
  rw [h.active]
  omega

end Key

end BunMail.Utils.MxLocks
