import Mathlib.Data.List.Basic
import Mathlib.Order.Nat

/-!
# Fixed windows

A window of `W` begins at the first time that falls into none.  The windows are read off the times, which
stand newest first.
-/

namespace FixedWindow

variable (W : ℕ)

/-- The starts of the windows. -/
def starts : List ℕ → List ℕ
  | [] => []
  | t :: earlier =>
    if (starts earlier).head?.any (fun w => t < w + W) then starts earlier else t :: starts earlier

/-- The window that `now` falls into. -/
def current (times : List ℕ) (now : ℕ) : Option ℕ :=
  (starts W times).head?.filter fun w => now < w + W

/-- The times in a window. -/
def count (w : ℕ) (times : List ℕ) : ℕ := times.countP fun t => w ≤ t ∧ t < w + W

/-- The times in the window that `now` falls into. -/
def used (times : List ℕ) (now : ℕ) : ℕ := (current W times now).elim 0 fun w => count W w times

/-- No window has more than `max` times. -/
def Within (max : ℕ) (times : List ℕ) : Prop := ∀ w ∈ starts W times, count W w times ≤ max

variable {W} {max now later w t : ℕ} {times : List ℕ}

/-! ## The last window -/

theorem current_eq_some :
    current W times now = some w ↔ (starts W times).head? = some w ∧ now < w + W := by
  unfold current
  rw [Option.filter_eq_some_iff, decide_eq_true_iff]

theorem current_eq_none :
    current W times now = none ↔ ∀ w, (starts W times).head? = some w → w + W ≤ now := by
  unfold current
  rw [Option.filter_eq_none_iff]
  refine forall_congr' fun w => imp_congr_right fun _ => ?_
  rw [decide_eq_true_iff, not_lt]

theorem current_none_mono (h : now ≤ later) (hnone : current W times now = none) :
    current W times later = none :=
  current_eq_none.mpr fun w hw => (current_eq_none.mp hnone w hw).trans h

theorem used_eq_of_some (h : current W times now = some w) : used W times now = count W w times := by
  unfold used
  rw [h]
  rfl

theorem used_eq_zero (h : current W times now = none) : used W times now = 0 := by
  unfold used
  rw [h]
  rfl

theorem starts_cons_of_some (h : current W times now = some w) :
    starts W (now :: times) = starts W times := by
  obtain ⟨hhead, hlt⟩ := current_eq_some.mp h
  refine if_pos ?_
  rw [hhead]
  exact decide_eq_true hlt

theorem starts_cons_of_none (h : current W times now = none) :
    starts W (now :: times) = now :: starts W times := by
  refine if_neg fun hany => ?_
  obtain ⟨w, hw, hlt⟩ := (Option.any_eq_true _ _).mp hany
  exact absurd (current_eq_none.mp h w hw) (not_le.mpr (of_decide_eq_true hlt))

theorem count_cons : count W w (t :: times) =
    count W w times + if w ≤ t ∧ t < w + W then 1 else 0 := by
  unfold count
  rw [List.countP_cons]
  simp only [decide_eq_true_eq]

/-! ## Times in order -/

/-- The times, newest first, up to `now`. -/
def UpTo (now : ℕ) (times : List ℕ) : Prop := (now :: times).Pairwise (· ≥ ·)

theorem UpTo.nil : UpTo now [] := List.pairwise_singleton _ _

theorem UpTo.le (h : UpTo now times) (ht : t ∈ times) : t ≤ now := (List.pairwise_cons.mp h).1 t ht

theorem UpTo.mono (h : UpTo now times) (hle : now ≤ later) : UpTo later times :=
  List.pairwise_cons.mpr ⟨fun _ ht => (h.le ht).trans hle, (List.pairwise_cons.mp h).2⟩

theorem UpTo.cons (h : UpTo now times) : UpTo now (now :: times) :=
  List.pairwise_cons.mpr ⟨fun t ht => by
    rcases List.mem_cons.mp ht with rfl | ht
    · exact le_rfl
    · exact h.le ht, h⟩

theorem mem_of_mem_starts (h : w ∈ starts W times) : w ∈ times := by
  induction times with
  | nil => exact h
  | cons t earlier ih =>
    unfold starts at h
    split at h
    · exact List.mem_cons_of_mem t (ih h)
    · rcases List.mem_cons.mp h with rfl | h
      · exact List.mem_cons_self
      · exact List.mem_cons_of_mem t (ih h)

/-- Every time is before the end of the last window. -/
theorem lt_of_mem (hW : 0 < W) (h : UpTo now times) (ht : t ∈ times) :
    ∃ w, (starts W times).head? = some w ∧ t < w + W := by
  induction times generalizing t now with
  | nil => exact absurd ht List.not_mem_nil
  | cons s earlier ih =>
    have hs : UpTo s earlier := (List.pairwise_cons.mp h).2
    cases hcur : current W earlier s with
    | none =>
      rw [starts_cons_of_none hcur]
      refine ⟨s, rfl, ?_⟩
      have hle : t ≤ s := by
        rcases List.mem_cons.mp ht with rfl | ht
        · exact le_rfl
        · exact hs.le ht
      omega
    | some w =>
      rw [starts_cons_of_some hcur]
      obtain ⟨hhead, hlt⟩ := current_eq_some.mp hcur
      rcases List.mem_cons.mp ht with rfl | ht
      · exact ⟨w, hhead, hlt⟩
      · exact ih hs ht

/-- The windows lie apart. -/
theorem starts_apart (h : UpTo now times) : (starts W times).Pairwise fun a b => b + W ≤ a := by
  induction times generalizing now with
  | nil => exact List.Pairwise.nil
  | cons t earlier ih =>
    have ht : UpTo t earlier := (List.pairwise_cons.mp h).2
    cases hcur : current W earlier t with
    | some w => rw [starts_cons_of_some hcur]; exact ih ht
    | none =>
      rw [starts_cons_of_none hcur]
      refine List.pairwise_cons.mpr ⟨fun b hb => ?_, ih ht⟩
      cases hws : starts W earlier with
      | nil => rw [hws] at hb; exact absurd hb List.not_mem_nil
      | cons a rest =>
        have hend : a + W ≤ t := current_eq_none.mp hcur a (by rw [hws]; rfl)
        rw [hws] at hb
        rcases List.mem_cons.mp hb with rfl | hb
        · exact hend
        · have := (List.pairwise_cons.mp (hws ▸ ih ht)).1 b hb
          omega

/-- A window that is not the current one is over. -/
theorem ended (h : UpTo now times) (hw : w ∈ starts W times) (hne : current W times now ≠ some w) :
    w + W ≤ now := by
  have hapart := starts_apart (W := W) h
  cases hws : starts W times with
  | nil => rw [hws] at hw; exact absurd hw List.not_mem_nil
  | cons a rest =>
    have hhead : (starts W times).head? = some a := by rw [hws]; rfl
    have ha : a ≤ now := h.le (mem_of_mem_starts (W := W) (by rw [hws]; exact List.mem_cons_self))
    rw [hws] at hw hapart
    rcases List.mem_cons.mp hw with rfl | hw
    · exact not_lt.mp fun hlt => hne (current_eq_some.mpr ⟨hhead, hlt⟩)
    · exact ((List.pairwise_cons.mp hapart).1 w hw).trans ha

/-- A time that no window holds comes after all that were. -/
theorem lt_of_current_none (hW : 0 < W) (h : UpTo now times) (hnone : current W times now = none)
    (ht : t ∈ times) : t < now := by
  obtain ⟨w, hw, hlt⟩ := lt_of_mem hW h ht
  exact hlt.trans_le (current_eq_none.mp hnone w hw)

theorem count_eq_zero (h : ∀ t ∈ times, t < w) : count W w times = 0 := by
  refine List.countP_eq_zero.mpr fun t ht hmem => ?_
  exact absurd (h t ht) (not_lt.mpr (of_decide_eq_true hmem).1)

/-- **One more time.** A time that finds its window with room left keeps every window within `max`. -/
theorem Within.cons (hW : 0 < W) (h : UpTo now times) (hwithin : Within W max times)
    (hroom : used W times now < max) : Within W max (now :: times) := by
  intro w hw
  rw [count_cons]
  by_cases hold : w ∈ starts W times
  · by_cases hcur : current W times now = some w
    · rw [used_eq_of_some hcur] at hroom
      split <;> omega
    · rw [if_neg fun hin => not_le.mpr hin.2 (ended h hold hcur)]
      exact hwithin w hold
  · cases hcur : current W times now with
    | some v => rw [starts_cons_of_some hcur] at hw; exact absurd hw hold
    | none =>
      rw [starts_cons_of_none hcur] at hw
      rcases List.mem_cons.mp hw with rfl | hw
      · rw [count_eq_zero fun t ht => lt_of_current_none hW h hcur ht]
        split <;> omega
      · exact absurd hw hold

end FixedWindow
