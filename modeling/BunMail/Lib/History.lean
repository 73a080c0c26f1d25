import Mathlib.Data.List.Basic
import Mathlib.Data.List.Induction

/-!
# Histories

A log of events in which each is allowed after those before it.  A system whose log is one, and whose
state is read off the log, refines the abstract one that takes the allowed events one at a time.
-/

namespace History

variable {α : Type*} {allowed : List α → α → Prop} {log : List α} {e : α}

/-- Each event is allowed after those before it. -/
def Lawful (allowed : List α → α → Prop) (log : List α) : Prop :=
  ∀ earlier e later, log = earlier ++ e :: later → allowed earlier e

theorem lawful_nil : Lawful allowed [] := by
  intro earlier e later h
  exact absurd h.symm (List.append_ne_nil_of_right_ne_nil _ (List.cons_ne_nil _ _))

theorem Lawful.concat (h : Lawful allowed log) (he : allowed log e) : Lawful allowed (log ++ [e]) := by
  intro earlier e' later hlog
  rcases List.eq_nil_or_concat later with rfl | ⟨later', x, rfl⟩
  · obtain ⟨rfl, hlast⟩ := List.append_inj' hlog rfl
    cases hlast
    exact he
  · have hsplit : log ++ [e] = (earlier ++ e' :: later') ++ [x] := by
      rw [hlog, List.concat_eq_append, List.append_assoc, List.cons_append]
    exact h earlier e' later' (List.append_inj' hsplit rfl).1

/-- Of two events, one was allowed after the other. -/
theorem Lawful.of_mem_of_mem (h : Lawful allowed log) {a b : α} (ha : a ∈ log) (hb : b ∈ log) (hne : a ≠ b) :
    ∃ earlier later, (log = earlier ++ b :: later ∧ a ∈ earlier ∧ allowed earlier b) ∨
      (log = earlier ++ a :: later ∧ b ∈ earlier ∧ allowed earlier a) := by
  obtain ⟨earlier, later, hlog⟩ := List.append_of_mem hb
  rw [hlog] at ha
  rcases List.mem_append.mp ha with hearlier | hrest
  · exact ⟨earlier, later, .inl ⟨hlog, hearlier, h earlier b later hlog⟩⟩
  · have hlater : a ∈ later := (List.mem_cons.mp hrest).resolve_left hne
    obtain ⟨between, rest, rfl⟩ := List.append_of_mem hlater
    have hsplit : log = (earlier ++ b :: between) ++ a :: rest := by
      rw [hlog, List.append_assoc, List.cons_append]
    have hmem : b ∈ earlier ++ b :: between := List.mem_append_right _ List.mem_cons_self
    exact ⟨_, rest, .inr ⟨hsplit, hmem, h _ a rest hsplit⟩⟩

/-! ## Induction -/

theorem Lawful.of_concat (h : Lawful allowed (log ++ [e])) :
    Lawful allowed log ∧ allowed log e := by
  refine ⟨fun earlier e' later hlog => ?_, h log e [] rfl⟩
  refine h earlier e' (later ++ [e]) ?_
  rw [hlog, List.append_assoc, List.cons_append]

theorem Lawful.earlier {later : List α} (h : Lawful allowed (log ++ later)) : Lawful allowed log := by
  intro earlier e rest hlog
  refine h earlier e (rest ++ later) ?_
  rw [hlog, List.append_assoc, List.cons_append]

/-- Induction on a lawful log, its last event last. -/
@[elab_as_elim]
theorem Lawful.induction {motive : List α → Prop} (nil : motive [])
    (concat : ∀ log e, Lawful allowed log → allowed log e → motive log → motive (log ++ [e])) {log : List α}
    (h : Lawful allowed log) : motive log := by
  induction log using List.reverseRecOn with
  | nil => exact nil
  | append_singleton log e ih =>
    obtain ⟨hlog, he⟩ := h.of_concat
    exact concat log e hlog he (ih hlog)

end History
