import Mathlib.Data.List.Basic
import Mathlib.Order.Nat

/-!
# Calls on a clock

The calls of a run carry their time, and the times do not decrease.  Two implementations of one
interface give the same answers when every call keeps a relation between their states; the relation
may depend on the time, so that what has expired on one side may still be stored on the other.
-/

universe u v w

namespace Timed

variable {σ τ : Type u} {α : Type v} {β : Type w} (time : α → ℕ)

/-- The times do not decrease, from `now` on. -/
def Ticks : ℕ → List α → Prop
  | _, [] => True
  | now, a :: as => now ≤ time a ∧ Ticks (time a) as

instance Ticks.decidable : ∀ (now : ℕ) (as : List α), Decidable (Ticks time now as)
  | _, [] => isTrue trivial
  | now, a :: as => @instDecidableAnd _ _ (Nat.decLe now (time a)) (Ticks.decidable (time a) as)

/-- The time of the last call. -/
def lastTime : ℕ → List α → ℕ
  | now, [] => now
  | _, a :: as => lastTime (time a) as

/-- The calls with their answers. -/
def history (call : σ → α → β × σ) : σ → List α → List (α × β)
  | _, [] => []
  | s, a :: as => (a, (call s a).1) :: history call (call s a).2 as

/-- The state after the calls. -/
def final (call : σ → α → β × σ) (s : σ) (as : List α) : σ := as.foldl (fun s a => (call s a).2) s

variable {time} {now : ℕ} {as bs : List α}

theorem Ticks.mono (h : Ticks time now as) {before : ℕ} (hle : before ≤ now) :
    Ticks time before as := by
  cases as with
  | nil => trivial
  | cons a as => exact ⟨hle.trans h.1, h.2⟩

theorem Ticks.le (h : Ticks time now as) : ∀ a ∈ as, now ≤ time a := by
  induction as generalizing now with
  | nil => exact fun a ha => absurd ha List.not_mem_nil
  | cons b as ih =>
    intro a ha
    rcases List.mem_cons.mp ha with rfl | ha
    · exact h.1
    · exact h.1.trans (ih h.2 a ha)

theorem le_lastTime (h : Ticks time now as) : now ≤ lastTime time now as := by
  induction as generalizing now with
  | nil => exact le_rfl
  | cons a as ih => exact h.1.trans (ih h.2)

theorem lastTime_append :
    lastTime time now (as ++ bs) = lastTime time (lastTime time now as) bs := by
  induction as generalizing now with
  | nil => rfl
  | cons a as ih => exact ih

theorem ticks_append : Ticks time now (as ++ bs) ↔
    Ticks time now as ∧ Ticks time (lastTime time now as) bs := by
  induction as generalizing now with
  | nil => simp [Ticks, lastTime]
  | cons a as ih => simp only [List.cons_append, Ticks, lastTime, ih, and_assoc]

section Rules

variable {f : σ → α → β × σ} {g : τ → α → β × τ} {s : σ} {t : τ} {C : α → Prop}

theorem final_append (s : σ) (as bs : List α) :
    final f s (as ++ bs) = final f (final f s as) bs := List.foldl_append

/-- **Invariant rule.** -/
theorem invariant (Inv : ℕ → σ → Prop)
    (hstep : ∀ now s a, Inv now s → now ≤ time a → C a → Inv (time a) (f s a).2)
    (hs : Inv now s) (ht : Ticks time now as) (hC : ∀ a ∈ as, C a) :
    Inv (lastTime time now as) (final f s as) := by
  induction as generalizing now s with
  | nil => exact hs
  | cons a as ih =>
    exact ih (hstep now s a hs ht.1 (hC a List.mem_cons_self)) ht.2
      fun b hb => hC b (List.mem_cons_of_mem _ hb)

/-- The invariant rule for two states that answer the same calls. -/
theorem relates (R : ℕ → σ → τ → Prop)
    (hstep : ∀ now s t a, R now s t → now ≤ time a → C a → R (time a) (f s a).2 (g t a).2)
    (hR : R now s t) (ht : Ticks time now as) (hC : ∀ a ∈ as, C a) :
    R (lastTime time now as) (final f s as) (final g t as) := by
  induction as generalizing now s t with
  | nil => exact hR
  | cons a as ih =>
    exact ih (hstep now s t a hR ht.1 (hC a List.mem_cons_self)) ht.2
      fun b hb => hC b (List.mem_cons_of_mem _ hb)

/-- **Simulation rule.** The answers to the calls that `p` selects are the same. -/
theorem history_eq (p : α → Bool) (R : ℕ → σ → τ → Prop)
    (hstep : ∀ now s t a, R now s t → now ≤ time a → C a →
      (p a = true → (f s a).1 = (g t a).1) ∧ R (time a) (f s a).2 (g t a).2)
    (hR : R now s t) (ht : Ticks time now as) (hC : ∀ a ∈ as, C a) :
    (history f s as).filter (fun e => p e.1) = (history g t as).filter fun e => p e.1 := by
  induction as generalizing now s t with
  | nil => rfl
  | cons a as ih =>
    obtain ⟨hanswer, hR'⟩ := hstep now s t a hR ht.1 (hC a List.mem_cons_self)
    have hrest := ih hR' ht.2 fun b hb => hC b (List.mem_cons_of_mem _ hb)
    rw [history, history, List.filter_cons, List.filter_cons, hrest]
    cases hp : p a with
    | false => rfl
    | true =>
      rw [if_pos rfl, if_pos rfl, hanswer hp]

end Rules

end Timed
