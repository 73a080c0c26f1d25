import Mathlib.Data.List.Basic

/-!
# Programs whose calls may fail

A program works on a state by calls, any of which may fail.  The world decides: what the call number
`i` finds is `env i`, and a call that finds nothing fails, changes nothing and throws.  Every call is
recorded with how it went.  `wp` is the weakest precondition of a program in a world, for its result
and the state it leaves.
-/

namespace Faults

/-- A state, and the calls made so far, each with whether it succeeded. -/
structure World (κ σ : Type) where
  state : σ
  calls : List (κ × Bool)

/-- A program: `env i` is what the call number `i` finds. -/
def Prog (κ ρ σ ε α : Type) : Type := (ℕ → Option ρ) → World κ σ → Except ε α × World κ σ

section Programs

variable {κ ρ σ ε ε' α β : Type}

instance : Monad (Prog κ ρ σ ε) where
  pure a := fun _ w => (.ok a, w)
  bind p f := fun env w =>
    match p env w with
    | (.ok a, w') => f a env w'
    | (.error e, w') => (.error e, w')

/-- A call: it fails with `e`, or answers from what it finds and the state. -/
def call (k : κ) (e : ε) (f : ρ → σ → α × σ) : Prog κ ρ σ ε α := fun env w =>
  match env w.calls.length with
  | none => (.error e, { w with calls := w.calls ++ [(k, false)] })
  | some found =>
    let (a, state) := f found w.state
    (.ok a, ⟨state, w.calls ++ [(k, true)]⟩)

/-- A change of the state that is no call. -/
def modify (f : σ → σ) : Prog κ ρ σ ε Unit := fun _ w => (.ok (), { w with state := f w.state })

def throw (e : ε) : Prog κ ρ σ ε α := fun _ w => (.error e, w)

/-- What the program reads of its state, without a call. -/
def get : Prog κ ρ σ ε σ := fun _ w => (.ok w.state, w)

/-- Throws what is wrong, if anything is. -/
def check (problem : Option ε) : Prog κ ρ σ ε Unit := fun _ w =>
  (problem.elim (.ok ()) .error, w)

/-- What is thrown is handled. -/
def recover (p : Prog κ ρ σ ε α) (handle : ε → Prog κ ρ σ ε' α) : Prog κ ρ σ ε' α := fun env w =>
  match p env w with
  | (.ok a, w') => (.ok a, w')
  | (.error e, w') => handle e env w'

/-! ## Weakest preconditions -/

/-- In this world the program ends as `Q` says. -/
def wp (env : ℕ → Option ρ) (p : Prog κ ρ σ ε α) (Q : Except ε α → World κ σ → Prop)
    (w : World κ σ) : Prop := Q (p env w).1 (p env w).2

variable {env : ℕ → Option ρ} {p : Prog κ ρ σ ε α} {Q Q' : Except ε α → World κ σ → Prop}
  {w : World κ σ}

/-- **Consequence.** -/
theorem wp.mono (h : wp env p Q w) (hQ : ∀ r w', Q r w' → Q' r w') : wp env p Q' w := hQ _ _ h

/-- The result and the world are those of the run. -/
theorem wp.run (h : wp env p Q w) : wp env p (fun r w' => Q r w' ∧ p env w = (r, w')) w := ⟨h, rfl⟩

theorem wp_pure {a : α} : wp env (pure a) Q w ↔ Q (.ok a) w := Iff.rfl

theorem wp_throw {e : ε} : wp env (throw e) Q w ↔ Q (.error e) w := Iff.rfl

theorem wp_get {Q : Except ε σ → World κ σ → Prop} :
    wp env (get (κ := κ)) Q w ↔ Q (.ok w.state) w := Iff.rfl

theorem wp_check {problem : Option ε} {Q : Except ε Unit → World κ σ → Prop} :
    wp env (check problem) Q w ↔
      (problem = none → Q (.ok ()) w) ∧ ∀ e, problem = some e → Q (.error e) w := by
  unfold wp check
  cases problem with
  | none => exact ⟨fun h => ⟨fun _ => h, fun _ he => (by cases he)⟩, fun h => h.1 rfl⟩
  | some e =>
    refine ⟨fun h => ⟨fun hn => (by cases hn), fun _ he => ?_⟩, fun h => h.2 e rfl⟩
    cases he
    exact h

theorem wp_modify {f : σ → σ} {Q : Except ε Unit → World κ σ → Prop} :
    wp env (modify f) Q w ↔ Q (.ok ()) { w with state := f w.state } := Iff.rfl

/-- **Sequence.** -/
theorem wp_bind {f : α → Prog κ ρ σ ε β} {Q : Except ε β → World κ σ → Prop} :
    wp env (p >>= f) Q w ↔
      wp env p (fun r w' => (∀ a, r = .ok a → wp env (f a) Q w') ∧ ∀ e, r = .error e → Q (.error e) w')
        w := by
  show Q ((p >>= f) env w).1 ((p >>= f) env w).2 ↔ _
  unfold wp
  have hbind : (p >>= f) env w = match p env w with
    | (.ok a, w') => f a env w'
    | (.error e, w') => (.error e, w') := rfl
  rw [hbind]
  rcases p env w with ⟨_ | _, w'⟩
  · refine ⟨fun h => ⟨fun _ ha => (by cases ha), fun e he => ?_⟩, fun h => h.2 _ rfl⟩
    cases he
    exact h
  · refine ⟨fun h => ⟨fun a ha => ?_, fun _ he => (by cases he)⟩, fun h => h.1 _ rfl⟩
    cases ha
    exact h

/-- **Handling.** -/
theorem wp_recover {handle : ε → Prog κ ρ σ ε' α} {Q : Except ε' α → World κ σ → Prop} :
    wp env (recover p handle) Q w ↔
      wp env p (fun r w' => (∀ a, r = .ok a → Q (.ok a) w') ∧
        ∀ e, r = .error e → wp env (handle e) Q w') w := by
  unfold wp recover
  rcases p env w with ⟨_ | _, w'⟩
  · refine ⟨fun h => ⟨fun _ ha => (by cases ha), fun e he => ?_⟩, fun h => h.2 _ rfl⟩
    cases he
    exact h
  · refine ⟨fun h => ⟨fun a ha => ?_, fun _ he => (by cases he)⟩, fun h => h.1 _ rfl⟩
    cases ha
    exact h

/-- **One call.** -/
theorem wp_call {k : κ} {e : ε} {f : ρ → σ → α × σ} :
    wp env (call k e f) Q w ↔
      (env w.calls.length = none → Q (.error e) { w with calls := w.calls ++ [(k, false)] }) ∧
        ∀ found, env w.calls.length = some found →
          Q (.ok (f found w.state).1) ⟨(f found w.state).2, w.calls ++ [(k, true)]⟩ := by
  unfold wp call
  cases env w.calls.length with
  | none => exact ⟨fun h => ⟨fun _ => h, fun _ hf => by cases hf⟩, fun h => h.1 rfl⟩
  | some found =>
    refine ⟨fun h => ⟨fun hn => (by cases hn), fun _ hf => ?_⟩, fun h => h.2 found rfl⟩
    cases hf
    exact h

/-- A branch. -/
theorem wp_ite {c : Prop} [Decidable c] {q : Prog κ ρ σ ε α} :
    wp env (if c then p else q) Q w ↔ (c → wp env p Q w) ∧ (¬c → wp env q Q w) := by
  split_ifs with h
  · exact ⟨fun hp => ⟨fun _ => hp, fun hn => absurd h hn⟩, fun hp => hp.1 h⟩
  · exact ⟨fun hq => ⟨fun hc => absurd hc h, fun _ => hq⟩, fun hq => hq.2 h⟩

/-! ## Programs that only read -/

/-- The state is left as it was, however the program ends. -/
def Reads (p : Prog κ ρ σ ε α) : Prop := ∀ env w, (p env w).2.state = w.state

theorem reads_pure {a : α} : Reads (pure a : Prog κ ρ σ ε α) := fun _ _ => rfl

theorem reads_get : Reads (get : Prog κ ρ σ ε σ) := fun _ _ => rfl

theorem reads_throw {e : ε} : Reads (throw e : Prog κ ρ σ ε α) := fun _ _ => rfl

theorem reads_check {problem : Option ε} : Reads (check problem : Prog κ ρ σ ε Unit) :=
  fun _ _ => rfl

theorem reads_call {k : κ} {e : ε} {f : ρ → σ → α} :
    Reads (call k e fun found state => (f found state, state)) := by
  intro env w
  unfold call
  cases env w.calls.length <;> rfl

theorem Reads.bind {f : α → Prog κ ρ σ ε β} (hp : Reads p) (hf : ∀ a, Reads (f a)) :
    Reads (p >>= f) := by
  intro env w
  have hwp : wp env (p >>= f) (fun _ w' => w'.state = w.state) w := by
    refine wp_bind.mpr ⟨fun a _ => ?_, fun _ _ => hp env w⟩
    exact (hf a env _).trans (hp env w)
  exact hwp

theorem Reads.ite {c : Prop} [Decidable c] {q : Prog κ ρ σ ε α} (hp : Reads p) (hq : Reads q) :
    Reads (if c then p else q) := by
  split_ifs
  · exact hp
  · exact hq

/-! ## Programs that throw what failed -/

/-- Calls that succeeded. -/
def succeeded (ks : List κ) : List (κ × Bool) := ks.map fun k => (k, true)

/-- How a program without handlers has ended: every call succeeded, and what is thrown is of `E`, or
the last call failed and that is thrown.  The calls are of `S`. -/
def EndsHonestly (fail : κ → ε) (S : κ → Prop) (E : ε → Prop) (w : World κ σ) (r : Except ε α)
    (w' : World κ σ) : Prop :=
  (∃ ks, (∀ k ∈ ks, S k) ∧ w'.calls = w.calls ++ succeeded ks ∧ ∀ e, r = .error e → E e) ∨
    ∃ ks k, (∀ k' ∈ ks, S k') ∧ S k ∧ w'.calls = w.calls ++ (succeeded ks ++ [(k, false)]) ∧
      r = .error (fail k)

/-- It always ends so. -/
def Honest (fail : κ → ε) (S : κ → Prop) (E : ε → Prop) (p : Prog κ ρ σ ε α) : Prop :=
  ∀ env w, wp env p (EndsHonestly fail S E w) w

variable {fail : κ → ε} {S T : κ → Prop} {E F : ε → Prop}

theorem EndsHonestly.mono {r : Except ε α} {w w' : World κ σ} (hST : ∀ k, S k → T k)
    (hEF : ∀ e, E e → F e) (h : EndsHonestly fail S E w r w') : EndsHonestly fail T F w r w' := by
  rcases h with ⟨ks, hks, hcalls, hr⟩ | ⟨ks, k, hks, hk, h⟩
  · exact .inl ⟨ks, fun k hk => hST k (hks k hk), hcalls, fun e he => hEF e (hr e he)⟩
  · exact .inr ⟨ks, k, fun k hk => hST k (hks k hk), hST k hk, h⟩

theorem Honest.mono (hST : ∀ k, S k → T k) (hEF : ∀ e, E e → F e) (h : Honest fail S E p) :
    Honest fail T F p :=
  fun env w => wp.mono (h env w) fun _ _ hends => hends.mono hST hEF

/-- Nothing is called. -/
theorem endsHonestly_refl {r : Except ε α} {w : World κ σ} (hr : ∀ e, r = .error e → E e) :
    EndsHonestly fail S E w r w :=
  .inl ⟨[], fun _ hk => (by cases hk), (List.append_nil _).symm, hr⟩

theorem honest_pure {a : α} : Honest fail S E (pure a : Prog κ ρ σ ε α) :=
  fun _ _ => endsHonestly_refl fun _ hr => by cases hr

theorem honest_check {problem : Option ε} (hp : ∀ e, problem = some e → E e) :
    Honest fail S E (check problem : Prog κ ρ σ ε Unit) := by
  intro env w
  refine wp_check.mpr ⟨fun _ => endsHonestly_refl fun _ hr => (by cases hr), fun e he => ?_⟩
  exact endsHonestly_refl fun e' hr => Except.error.inj hr ▸ hp e he

theorem honest_call {k : κ} {f : ρ → σ → α × σ} (hk : S k) :
    Honest fail S E (call k (fail k) f) := by
  intro env w
  refine wp_call.mpr ⟨fun _ => .inr ⟨[], k, fun _ h => (by cases h), hk, rfl, rfl⟩, fun _ _ => ?_⟩
  exact .inl ⟨[k], fun k' h => List.mem_singleton.mp h ▸ hk, rfl, fun _ hr => (by cases hr)⟩

/-- **One after the other.** -/
theorem EndsHonestly.trans {r : Except ε β} {a : α} {w w' w'' : World κ σ}
    (h : EndsHonestly fail S E w (Except.ok a) w') (h' : EndsHonestly fail S E w' r w'') :
    EndsHonestly fail S E w r w'' := by
  rcases h with ⟨ks, hks, hcalls, _⟩ | ⟨_, _, _, _, _, hr⟩
  swap
  · cases hr
  have hall : ∀ {ls : List κ}, (∀ k ∈ ls, S k) → ∀ k ∈ ks ++ ls, S k :=
    fun hls k hk => (List.mem_append.mp hk).elim (hks k) (hls k)
  rcases h' with ⟨ls, hls, hcalls', hr⟩ | ⟨ls, k, hls, hk, hcalls', hr⟩
  · refine .inl ⟨ks ++ ls, hall hls, ?_, hr⟩
    rw [hcalls', hcalls, List.append_assoc, succeeded, succeeded, succeeded, List.map_append]
  · refine .inr ⟨ks ++ ls, k, hall hls, hk, ?_, hr⟩
    rw [hcalls', hcalls, succeeded, succeeded, succeeded, List.map_append, List.append_assoc,
      List.append_assoc]

/-- What is thrown in the first program ends the second. -/
theorem EndsHonestly.error {r : Except ε α} {e : ε} {w w' : World κ σ} (he : r = .error e)
    (h : EndsHonestly fail S E w r w') : EndsHonestly fail S E w (Except.error e : Except ε β) w' := by
  subst he
  rcases h with ⟨ks, hks, hcalls, hr⟩ | ⟨ks, k, hks, hk, hcalls, hr⟩
  · exact .inl ⟨ks, hks, hcalls, fun e' he => Except.error.inj he ▸ hr e rfl⟩
  · exact .inr ⟨ks, k, hks, hk, hcalls, congrArg Except.error (Except.error.inj hr)⟩

theorem Honest.bind {f : α → Prog κ ρ σ ε β} (hp : Honest fail S E p)
    (hf : ∀ a, Honest fail S E (f a)) : Honest fail S E (p >>= f) := by
  intro env w
  refine wp_bind.mpr (wp.mono (hp env w) fun r w' h => ⟨fun a ha => ?_, fun e he => h.error he⟩)
  subst ha
  exact wp.mono (hf a env w') fun r' w'' h' => h.trans h'

/-- What a failed call throws tells that it failed, and that nothing else did. -/
theorem EndsHonestly.of_fail {r : Except ε α} {w w' : World κ σ} {k : κ}
    (hfail : Function.Injective fail) (hE : ¬E (fail k)) (h : EndsHonestly fail S E w r w')
    (hr : r = .error (fail k)) :
    ∃ ks, (∀ k' ∈ ks, S k') ∧ S k ∧ w'.calls = w.calls ++ (succeeded ks ++ [(k, false)]) := by
  rcases h with ⟨_, _, _, hr'⟩ | ⟨ks, k', hks, hk', hcalls, hr'⟩
  · exact absurd (hr' _ hr) hE
  · obtain rfl := hfail (Except.error.inj (hr'.symm.trans hr))
    exact ⟨ks, hks, hk', hcalls⟩

/-- Anything else tells that no call failed. -/
theorem EndsHonestly.of_ne {r : Except ε α} {w w' : World κ σ} (h : EndsHonestly fail S E w r w')
    (hr : ∀ k, r ≠ .error (fail k)) :
    ∃ ks, (∀ k ∈ ks, S k) ∧ w'.calls = w.calls ++ succeeded ks := by
  rcases h with ⟨ks, hks, hcalls, _⟩ | ⟨_, k, _, _, _, hr'⟩
  · exact ⟨ks, hks, hcalls⟩
  · exact absurd hr' (hr k)

end Programs

end Faults
