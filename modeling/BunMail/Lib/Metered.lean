import Mathlib.Data.List.Count

/-!
# Programs on a budget

A program with a state that may fail, whose charges are counted in the state and which stops when one of
its limits is passed.  Next to it stands a relation of charges and results that knows no limits: the program
is exact for it when it ends with the only result of the relation, or stops where every result of the relation
is over a limit.
-/

namespace Metered

variable {σ ε α β ι E ρ : Type}

/-! ## Programs -/

/-- A program that keeps a state and may fail. -/
def Program (σ ε α : Type) : Type := σ → Except ε α × σ

namespace Program

def done (a : α) : Program σ ε α := fun s => (.ok a, s)

def fail (e : ε) : Program σ ε α := fun s => (.error e, s)

def andThen (p : Program σ ε α) (f : α → Program σ ε β) : Program σ ε β := fun s =>
  match p s with
  | (.ok a, s') => f a s'
  | (.error e, s') => (.error e, s')

instance : Monad (Program σ ε) where
  pure := done
  bind := andThen

theorem pure_eq (a : α) : (pure a : Program σ ε α) = done a := rfl

theorem bind_eq (p : Program σ ε α) (f : α → Program σ ε β) : p >>= f = p.andThen f := rfl

variable {p : Program σ ε α} {f : α → Program σ ε β} {s s' : σ} {a : α} {e : ε}

theorem andThen_ok (h : p s = (.ok a, s')) : p.andThen f s = f a s' := by
  unfold andThen
  rw [h]

theorem andThen_error (h : p s = (.error e, s')) : p.andThen f s = (.error e, s') := by
  unfold andThen
  rw [h]

end Program

/-! ## Readings -/

/-- Charges and a result, without limits. -/
abbrev Reading (ι E α : Type) : Type := List ι × Except E α

namespace Reading

def done (a : α) : Reading ι E α := ([], .ok a)

def fail (e : E) : Reading ι E α := ([], .error e)

/-- One charge. -/
def charge (i : ι) : Reading ι E Unit := ([i], .ok ())

def andThen (r : Reading ι E α) (f : α → Reading ι E β) : Reading ι E β :=
  match r.2 with
  | .ok a => (r.1 ++ (f a).1, (f a).2)
  | .error e => (r.1, .error e)

/-- The relation of a reading. -/
def Shows (r : Reading ι E α) (t : List ι) (v : Except E α) : Prop := t = r.1 ∧ v = r.2

/-- One relation after the other: an error of the first is a result. -/
def Chain {B : Type} (err : E → B) (R : List ι → Except E α → Prop) (S : α → List ι → B → Prop) (t : List ι) (v : B) :
    Prop :=
  (∃ e, R t (.error e) ∧ v = err e) ∨ ∃ t₁ a t₂, R t₁ (.ok a) ∧ S a t₂ v ∧ t = t₁ ++ t₂

variable {B : Type} {err : E → B} {a : α} {S : α → List ι → B → Prop} {t : List ι} {v : B}

theorem chain_reading {r : Reading ι E α} : Chain err r.Shows S t v ↔
    (∃ e, r.2 = .error e ∧ t = r.1 ∧ v = err e) ∨ ∃ a t', r.2 = .ok a ∧ S a t' v ∧ t = r.1 ++ t' := by
  constructor
  · rintro (⟨e, ⟨rfl, he⟩, rfl⟩ | ⟨t₁, a, t₂, ⟨rfl, ha⟩, hR, rfl⟩)
    · exact .inl ⟨e, he.symm, rfl, rfl⟩
    · exact .inr ⟨a, t₂, ha.symm, hR, rfl⟩
  · rintro (⟨e, he, rfl, rfl⟩ | ⟨a, t', ha, hR, rfl⟩)
    · exact .inl ⟨e, ⟨rfl, he.symm⟩, rfl⟩
    · exact .inr ⟨r.1, a, t', ⟨rfl, ha.symm⟩, hR, rfl⟩

/-- A step without charges leaves the rest. -/
theorem chain_done : Chain err (Reading.done a).Shows S t v ↔ S a t v := by
  rw [chain_reading]
  constructor
  · rintro (⟨e, he, -⟩ | ⟨a', t', ha, hR, rfl⟩)
    · cases he
    · cases ha
      exact hR
  · exact fun h => .inr ⟨a, t, rfl, h, rfl⟩

theorem chain_charge {i : ι} {R : Unit → List ι → B → Prop} :
    Chain err (charge i).Shows R t v ↔ ∃ t', R () t' v ∧ t = i :: t' := by
  rw [chain_reading]
  constructor
  · rintro (⟨e, he, -⟩ | ⟨_, t', _, hR, rfl⟩)
    · cases he
    · exact ⟨t', hR, rfl⟩
  · rintro ⟨t', hR, rfl⟩
    exact .inr ⟨(), t', rfl, hR, rfl⟩

theorem chain_shows {r : Reading ι E α} {f : α → Reading ι E β} {t : List ι} {v : Except E β} :
    Chain .error r.Shows (fun a => (f a).Shows) t v ↔ (r.andThen f).Shows t v := by
  obtain ⟨t₀, v₀⟩ := r
  unfold Chain Shows andThen
  cases v₀ with
  | error e =>
    constructor
    · rintro (⟨e', ⟨rfl, he⟩, rfl⟩ | ⟨t₁, a, t₂, ⟨-, ha⟩, -⟩)
      · cases he
        exact ⟨rfl, rfl⟩
      · cases ha
    · rintro ⟨rfl, rfl⟩
      exact .inl ⟨e, ⟨rfl, rfl⟩, rfl⟩
  | ok a =>
    constructor
    · rintro (⟨e', ⟨-, he⟩, -⟩ | ⟨t₁, a', t₂, ⟨rfl, ha⟩, ⟨rfl, rfl⟩, rfl⟩)
      · cases he
      · cases ha
        exact ⟨rfl, rfl⟩
    · rintro ⟨rfl, rfl⟩
      exact .inr ⟨t₀, a, (f a).1, ⟨rfl, rfl⟩, ⟨rfl, rfl⟩, rfl⟩

end Reading

/-! ## Meters -/

/-- What a state counts, and how far it may go. -/
structure Meter (σ ι : Type) where
  spent : σ → ι → ℕ
  limit : ι → ℕ

namespace Meter

variable [DecidableEq ι] (m : Meter σ ι)

def Within (s : σ) : Prop := ∀ i, m.spent s i ≤ m.limit i

/-- No limit is passed by more than one charge. -/
def Close (s : σ) : Prop := ∀ i, m.spent s i ≤ m.limit i + 1

/-- The charges between two states. -/
def After (s s' : σ) (t : List ι) : Prop := ∀ i, m.spent s' i = m.spent s i + t.count i

/-- The charges from a state pass a limit. -/
def Breaks (s : σ) (t : List ι) : Prop := ∃ i, m.limit i < m.spent s i + t.count i

variable {m} {s s' : σ} {t t' : List ι}

theorem After.refl (m : Meter σ ι) (s : σ) : m.After s s [] := fun i => by simp

theorem After.trans {s'' : σ} (h : m.After s s' t) (h' : m.After s' s'' t') : m.After s s'' (t ++ t') := fun i => by
  rw [h' i, h i, List.count_append, Nat.add_assoc]

theorem Breaks.append (h : m.Breaks s t) (t' : List ι) : m.Breaks s (t ++ t') := by
  obtain ⟨i, hi⟩ := h
  refine ⟨i, ?_⟩
  rw [List.count_append]
  omega

theorem Breaks.after (ha : m.After s s' t) (h : m.Breaks s' t') : m.Breaks s (t ++ t') := by
  obtain ⟨i, hi⟩ := h
  refine ⟨i, ?_⟩
  rw [ha i] at hi
  rw [List.count_append]
  omega

theorem not_breaks (hw : m.Within s') (h : m.After s s' t) : ¬m.Breaks s t := by
  rintro ⟨i, hi⟩
  have hwithin := hw i
  rw [h i] at hwithin
  omega

/-! ## Exactness -/

variable (m) in
/-- A run that ends with the only result of the relation within the limits, or stops at a charge too many where every
result is over one.  Its end is seen as a result, or not at all. -/
def Exact (view : ρ → Option β) (stop : β) (R : List ι → β → Prop) (s : σ) (out : ρ × σ) : Prop :=
  (∃ t v, m.After s out.2 t ∧ m.Within out.2 ∧ view out.1 = some v ∧ R t v ∧ ∀ t' v', R t' v' → t' = t ∧ v' = v) ∨
    view out.1 = some stop ∧ m.Close out.2 ∧ ∀ t v, R t v → m.Breaks s t

variable {view : ρ → Option β} {stop : β} {R S : List ι → β → Prop} {out : ρ × σ}

theorem Exact.congr (h : m.Exact view stop R s out) (hR : ∀ t v, R t v ↔ S t v) : m.Exact view stop S s out := by
  have heq : R = S := funext fun t => funext fun v => propext (hR t v)
  exact heq ▸ h

/-- The end of an exact run is a result within the limits, or the stop where there is none. -/
theorem Exact.iff (h : m.Exact view stop R s out) {v : β} : view out.1 = some v ↔
    (∃ t, R t v ∧ ¬m.Breaks s t) ∨ v = stop ∧ ∀ t v', R t v' → m.Breaks s t := by
  rcases h with ⟨t, w, hafter, hwithin, hview, hshown, honly⟩ | ⟨hstop, hclose, hbreaks⟩
  · have hin := not_breaks hwithin hafter
    rw [hview, Option.some_inj]
    constructor
    · rintro rfl
      exact .inl ⟨t, hshown, hin⟩
    · rintro (⟨t', hR, -⟩ | ⟨-, hbreaks⟩)
      · exact (honly t' v hR).2.symm
      · exact absurd (hbreaks t _ hshown) hin
  · rw [hstop, Option.some_inj]
    constructor
    · rintro rfl
      exact .inr ⟨rfl, hbreaks⟩
    · rintro (⟨t, hR, hin⟩ | ⟨rfl, -⟩)
      · exact absurd (hbreaks t v hR) hin
      · rfl

/-- The end goes through a function that fits the results. -/
theorem Exact.map {ρ' β' : Type} {view' : ρ' → Option β'} {f : ρ → ρ'} {g : β → β'}
    (h : m.Exact view stop R s out) (hview : ∀ r v, view r = some v → view' (f r) = some (g v)) :
    m.Exact view' (g stop) (fun t v => ∃ w, R t w ∧ v = g w) s (f out.1, out.2) := by
  rcases h with ⟨t, w, hafter, hwithin, hend, hshown, honly⟩ | ⟨hstop, hclose, hbreaks⟩
  · refine .inl ⟨t, g w, hafter, hwithin, hview _ _ hend, ⟨w, hshown, rfl⟩, ?_⟩
    rintro t' v ⟨w', hw, rfl⟩
    obtain ⟨rfl, rfl⟩ := honly t' w' hw
    exact ⟨rfl, rfl⟩
  · refine .inr ⟨hview _ _ hstop, hclose, ?_⟩
    rintro t v ⟨w, hw, -⟩
    exact hbreaks t w hw

end Meter

/-! ## Programs on a meter -/

namespace Program

variable [DecidableEq ι] {m : Meter σ ι} {look : ε → Option E} {stop : E} {s : σ}

/-- How the end of a program is seen, when its errors are seen as `look` sees them. -/
def sees (look : ε → Option E) : Except ε α → Option (Except E α)
  | .ok a => some (.ok a)
  | .error e => (look e).map .error

theorem sees_error {e : ε} {e' : E} (h : look e = some e') :
    sees look (.error e : Except ε α) = some (.error e') := Option.map_eq_some_iff.mpr ⟨e', h, rfl⟩

def Exact (m : Meter σ ι) (look : ε → Option E) (stop : E) (p : Program σ ε α) (R : List ι → Except E α → Prop)
    (s : σ) : Prop :=
  m.Exact (sees look) (.error stop) R s (p s)

theorem exact_done (a : α) (hs : m.Within s) :
    (Program.done a).Exact m look stop (Reading.done a).Shows s :=
  .inl ⟨[], .ok a, Meter.After.refl m s, hs, rfl, ⟨rfl, rfl⟩, fun _ _ h => h⟩

theorem exact_fail {e : ε} {e' : E} (hs : m.Within s) (hlook : look e = some e') :
    (Program.fail e : Program σ ε α).Exact m look stop (Reading.fail e').Shows s :=
  .inl ⟨[], .error e', Meter.After.refl m s, hs, sees_error hlook, ⟨rfl, rfl⟩, fun _ _ h => h⟩

/-- A step that charges nothing. -/
theorem exact_free {p : Program σ ε α} {a : α} {s' : σ} (hs : m.Within s) (hp : p s = (.ok a, s'))
    (hfree : ∀ i, m.spent s' i = m.spent s i) : p.Exact m look stop (Reading.done a).Shows s := by
  refine .inl ⟨[], .ok a, ?_, ?_, ?_, ⟨rfl, rfl⟩, fun _ _ h => h⟩
  · rw [hp]
    intro i
    simp [hfree i]
  · rw [hp]
    intro i
    rw [hfree i]
    exact hs i
  · rw [hp]
    rfl

/-- A charge stops the program when it is one too many. -/
theorem exact_charge {p : Program σ ε Unit} {i : ι} (e : ε) (s' : σ) (hs : m.Within s) (hlook : look e = some stop)
    (hspent : ∀ j, m.spent s' j = m.spent s j + if j = i then 1 else 0)
    (hp : p s = (if m.limit i < m.spent s' i then .error e else .ok (), s')) :
    p.Exact m look stop (Reading.charge i).Shows s := by
  unfold Exact
  rw [hp]
  by_cases hover : m.limit i < m.spent s' i
  · rw [if_pos hover]
    refine .inr ⟨sees_error hlook, fun j => ?_, ?_⟩
    · have hj := hs j
      rw [hspent j]
      split_ifs <;> omega
    rintro t v ⟨rfl, -⟩
    refine ⟨i, ?_⟩
    rw [hspent i, if_pos rfl] at hover
    simpa [Reading.charge] using hover
  · rw [if_neg hover]
    refine .inl ⟨[i], .ok (), fun j => ?_, fun j => ?_, rfl, ⟨rfl, rfl⟩, fun _ _ h => h⟩
    · by_cases hj : j = i
      · rw [hj, hspent i, if_pos rfl, List.count_singleton_self]
      · rw [hspent j, if_neg hj, List.count_singleton, if_neg (by simpa using Ne.symm hj)]
    · by_cases hj : j = i
      · rw [hj]
        exact Nat.le_of_not_lt hover
      · rw [hspent j, if_neg hj]
        exact hs j

/-- One program after the other.  The end of the second may be seen in its own way, which has a place for the
errors of the first. -/
theorem exact_bind_view {B : Type} {view : Except ε β → Option B} {err : E → B} {p : Program σ ε α}
    {f : α → Program σ ε β} {R : List ι → Except E α → Prop} {S : α → List ι → B → Prop}
    (hview : ∀ e e', look e = some e' → view (.error e) = some (err e')) (hp : p.Exact m look stop R s)
    (hf : ∀ a t s', R t (.ok a) → m.After s s' t → m.Within s' → m.Exact view (err stop) (S a) s' (f a s')) :
    m.Exact view (err stop) (Reading.Chain err R S) s (p.andThen f s) := by
  unfold Exact at hp
  obtain ⟨out, s', hout⟩ : ∃ out s', p s = (out, s') := ⟨_, _, rfl⟩
  rw [hout] at hp
  have herror : ∀ e w, sees look (.error e : Except ε α) = some w → ∃ e', w = .error e' ∧ view (.error e) = some (err e') := by
    intro e w h
    obtain ⟨e', he', rfl⟩ := Option.map_eq_some_iff.mp h
    exact ⟨e', rfl, hview e e' he'⟩
  rcases hp with ⟨t, v, hafter, hwithin, hend, hshown, honly⟩ | ⟨hstop, hclose, hbreaks⟩
  · cases out with
    | error e =>
      obtain ⟨e', rfl, hsees⟩ := herror e v hend
      rw [andThen_error hout]
      refine .inl ⟨t, err e', hafter, hwithin, hsees, .inl ⟨e', hshown, rfl⟩, ?_⟩
      rintro t' v (⟨e'', hR, rfl⟩ | ⟨t₁, a, t₂, hR, -⟩)
      · obtain ⟨rfl, he⟩ := honly t' _ hR
        cases he
        exact ⟨rfl, rfl⟩
      · cases (honly t₁ _ hR).2
    | ok a =>
      cases hend
      rw [andThen_ok hout]
      rcases hf a t s' hshown hafter hwithin with ⟨t', w, hafter', hwithin', hend', hshown', honly'⟩ | ⟨hstop, hclose, hbreaks⟩
      · refine .inl ⟨t ++ t', w, hafter.trans hafter', hwithin', hend', .inr ⟨t, a, t', hshown, hshown', rfl⟩, ?_⟩
        rintro u v (⟨e', hR, rfl⟩ | ⟨t₁, a', t₂, hR, hS, rfl⟩)
        · cases (honly u _ hR).2
        · obtain ⟨rfl, hsame⟩ := honly t₁ _ hR
          cases hsame
          obtain ⟨rfl, hv⟩ := honly' t₂ v hS
          exact ⟨rfl, hv⟩
      · refine .inr ⟨hstop, hclose, ?_⟩
        rintro u v (⟨e', hR, rfl⟩ | ⟨t₁, a', t₂, hR, hS, rfl⟩)
        · cases (honly u _ hR).2
        · obtain ⟨rfl, hsame⟩ := honly t₁ _ hR
          cases hsame
          exact Meter.Breaks.after hafter (hbreaks t₂ v hS)
  · cases out with
    | ok a => cases hstop
    | error e =>
      obtain ⟨e', he', hsees⟩ := herror e _ hstop
      cases he'
      rw [andThen_error hout]
      refine .inr ⟨hsees, hclose, ?_⟩
      rintro u v (⟨e', hR, rfl⟩ | ⟨t₁, a', t₂, hR, -, rfl⟩)
      · exact hbreaks u _ hR
      · exact (hbreaks t₁ _ hR).append t₂

theorem exact_bind {p : Program σ ε α} {f : α → Program σ ε β} {R : List ι → Except E α → Prop}
    {S : α → List ι → Except E β → Prop} (hp : p.Exact m look stop R s)
    (hf : ∀ a t s', R t (.ok a) → m.After s s' t → m.Within s' → (f a).Exact m look stop (S a) s') :
    (p.andThen f).Exact m look stop (Reading.Chain .error R S) s :=
  exact_bind_view (fun _ _ => sees_error) hp hf

/-- Two straight-line programs. -/
theorem exact_read {p : Program σ ε α} {f : α → Program σ ε β} {r : Reading ι E α} {g : α → Reading ι E β}
    (hp : p.Exact m look stop r.Shows s)
    (hf : ∀ a s', r.2 = .ok a → m.Within s' → (f a).Exact m look stop (g a).Shows s') :
    (p.andThen f).Exact m look stop (r.andThen g).Shows s :=
  Meter.Exact.congr (exact_bind hp fun a _ s' hR _ hs => hf a s' hR.2.symm hs) fun _ _ => Reading.chain_shows

/-! ## What a run costs -/

variable {cost credit : σ → ℕ}

/-- With `k` to spare, a run leaves `k'` to spare, and nothing is overdrawn when it fails. -/
def Spends (cost credit : σ → ℕ) (k k' : ℕ) (p : Program σ ε α) : Prop :=
  ∀ s, cost s + k ≤ credit s → (∀ a s', p s = (.ok a, s') → cost s' + k' ≤ credit s') ∧
    ∀ e s', p s = (.error e, s') → cost s' ≤ credit s'

variable {k k' k'' : ℕ} {p : Program σ ε α} {f : α → Program σ ε β}

theorem spends_done (a : α) (h : k' ≤ k) : Spends cost credit k k' (Program.done a : Program σ ε α) := by
  intro s hs
  refine ⟨fun b s' hb => ?_, fun e s' he => ?_⟩
  · cases hb
    omega
  · cases he

theorem spends_fail (e : ε) : Spends cost credit k k' (Program.fail e : Program σ ε α) := by
  intro s hs
  refine ⟨fun b s' hb => ?_, fun e' s' he => ?_⟩
  · cases hb
  · cases he
    omega

theorem Spends.bind (hp : Spends cost credit k k' p) (hf : ∀ a, Spends cost credit k' k'' (f a)) :
    Spends cost credit k k'' (p.andThen f) := by
  intro s hs
  obtain ⟨hok, herror⟩ := hp s hs
  obtain ⟨out, s', hout⟩ : ∃ out s', p s = (out, s') := ⟨_, _, rfl⟩
  cases out with
  | ok a =>
    rw [andThen_ok hout]
    exact hf a s' (hok a s' hout)
  | error e =>
    rw [andThen_error hout]
    constructor
    · intro b s'' hb
      cases hb
    · intro e' s'' he
      cases he
      exact herror e s' hout

/-- More to spare, and less of it kept. -/
theorem Spends.weaken {l l' : ℕ} (hp : Spends cost credit k k' p) (hk : k ≤ l) (hk' : l' ≤ k') :
    Spends cost credit l l' p := by
  intro s hs
  obtain ⟨hok, herror⟩ := hp s (by omega)
  refine ⟨fun a s' ha => ?_, herror⟩
  have := hok a s' ha
  omega

end Program

end Metered
