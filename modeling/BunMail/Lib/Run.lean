import Mathlib.Data.List.Basic
import Mathlib.Order.Defs.Unbundled

/-!
# Runs of a step function

A run folds a step function over a list of actions.  `Along C` says that every action of a run
meets a condition `C` in the state it is taken in.  An invariant, and a reflexive and transitive
relation between the states of a run, are carried by such a run when each step that meets the
condition carries them.
-/

universe u v

namespace Run

variable {σ : Type u} {α : Type v} (step : σ → α → σ)

/-- The state after the actions. -/
def run (s : σ) (as : List α) : σ := as.foldl step s

/-- Every action of the run meets `C` in the state it is taken in. -/
def Along (C : σ → α → Prop) : σ → List α → Prop
  | _, [] => True
  | s, a :: as => C s a ∧ Along C (step s a) as

instance Along.decidable (C : σ → α → Prop) [∀ s a, Decidable (C s a)] :
    ∀ (s : σ) (as : List α), Decidable (Along step C s as)
  | _, [] => isTrue trivial
  | s, a :: as => @instDecidableAnd _ _ _ (Along.decidable C (step s a) as)

@[simp] theorem run_nil (s : σ) : run step s [] = s := rfl

@[simp] theorem run_cons (s : σ) (a : α) (as : List α) :
    run step s (a :: as) = run step (step s a) as := rfl

theorem run_append (s : σ) (as bs : List α) :
    run step s (as ++ bs) = run step (run step s as) bs := List.foldl_append

theorem run_concat (s : σ) (as : List α) (a : α) :
    run step s (as ++ [a]) = step (run step s as) a := by rw [run_append]; rfl

variable {step} {C : σ → α → Prop}

theorem along_append {s : σ} {as bs : List α} :
    Along step C s (as ++ bs) ↔ Along step C s as ∧ Along step C (run step s as) bs := by
  induction as generalizing s with
  | nil => simp [Along]
  | cons a as ih => simp only [List.cons_append, Along, ih, run_cons, and_assoc]

/-- A run meets a condition when each of its actions does, in the state its prefix leads to. -/
theorem along_iff_forall_concat {s : σ} {as : List α} :
    Along step C s as ↔ ∀ bs a, bs ++ [a] <+: as → C (run step s bs) a := by
  constructor
  · rintro h bs a ⟨cs, rfl⟩
    rw [List.append_assoc, along_append] at h
    exact h.2.1
  · intro h
    induction as generalizing s with
    | nil => trivial
    | cons a as ih =>
      refine ⟨h [] a ⟨as, rfl⟩, ih fun bs b hb => ?_⟩
      exact h (a :: bs) b (List.cons_prefix_cons.mpr ⟨rfl, hb⟩)

theorem Along.mono {D : σ → α → Prop} (h : ∀ s a, C s a → D s a) {s : σ} {as : List α}
    (hC : Along step C s as) : Along step D s as := by
  induction as generalizing s with
  | nil => trivial
  | cons a as ih => exact ⟨h s a hC.1, ih hC.2⟩

theorem Along.and {D : σ → α → Prop} {s : σ} {as : List α} (hC : Along step C s as)
    (hD : Along step D s as) : Along step (fun s a => C s a ∧ D s a) s as := by
  induction as generalizing s with
  | nil => trivial
  | cons a as ih => exact ⟨⟨hC.1, hD.1⟩, ih hC.2 hD.2⟩

/-- **Invariant rule.** -/
theorem invariant (Inv : σ → Prop) (hstep : ∀ s a, Inv s → C s a → Inv (step s a)) {s : σ} {as : List α}
    (hs : Inv s) (hC : Along step C s as) : Inv (run step s as) := by
  induction as generalizing s with
  | nil => exact hs
  | cons a as ih => exact ih (hstep s a hs hC.1) hC.2

/-- The actions of a run meet what an invariant gives of each. -/
theorem Along.of_invariant (Inv : σ → Prop) {D : σ → α → Prop}
    (hstep : ∀ s a, Inv s → C s a → Inv (step s a)) (hD : ∀ s a, Inv s → C s a → D s a) {s : σ}
    {as : List α} (hs : Inv s) (hC : Along step C s as) : Along step D s as := by
  induction as generalizing s with
  | nil => trivial
  | cons a as ih => exact ⟨hD s a hs hC.1, ih (hstep s a hs hC.1) hC.2⟩

/-- The invariant rule for a loop over a list, whatever its items. -/
theorem foldl_invariant (Inv : σ → Prop) (hstep : ∀ s a, Inv s → Inv (step s a)) {s : σ}
    (hs : Inv s) (as : List α) : Inv (as.foldl step s) := by
  induction as generalizing s with
  | nil => exact hs
  | cons a as ih => exact ih (hstep s a hs)

/-- **Exactness rule.** What each step keeps exactly when it meets the condition, a run keeps exactly
when all its steps do. -/
theorem iff_along (Inv P : σ → Prop) (hinv : ∀ s a, Inv s → Inv (step s a))
    (hstep : ∀ s a, Inv s → (P (step s a) ↔ P s ∧ C s a)) {s : σ} {as : List α} (hs : Inv s) :
    P (run step s as) ↔ P s ∧ Along step C s as := by
  induction as generalizing s with
  | nil => exact (iff_of_eq (and_true _)).symm
  | cons a as ih => rw [run_cons, ih (hinv s a hs), hstep s a hs, and_assoc]; rfl

/-- **Relation rule.** The first and the last state of a run are related when each step relates
the state before it to the state after it. -/
theorem relates (Inv : σ → Prop) (R : σ → σ → Prop) (hrefl : ∀ s, R s s) (htrans : ∀ s t u, R s t → R t u → R s u)
    (hinv : ∀ s a, Inv s → C s a → Inv (step s a)) (hstep : ∀ s a, Inv s → C s a → R s (step s a))
    {s : σ} {as : List α} (hs : Inv s) (hC : Along step C s as) : R s (run step s as) := by
  induction as generalizing s with
  | nil => exact hrefl s
  | cons a as ih =>
    exact htrans _ _ _ (hstep s a hs hC.1) (ih (hinv s a hs hC.1) hC.2)

end Run
