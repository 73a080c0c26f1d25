import Mathlib.Logic.Function.Basic
import BunMail.Lib.FixedWindow
import BunMail.Lib.Text

/-!
# The in-process rate limiter

`rate-limit-core.ts`: a count and a window start for each key.  A refused request is counted too, so the
count of a window says how many requests the window took and how many it refused.
-/

namespace BunMail.Middleware

open FixedWindow

/-- `RateLimitOptions`. -/
structure RateLimitOptions where
  max : ℕ
  windowMs : ℕ

/-- `RateLimitEntry`. -/
structure RateLimitEntry where
  count : ℕ
  windowStart : Time
  deriving DecidableEq

/-- `RateLimitDecision`. -/
inductive RateLimitDecision where
  | unlimited
  | limited (count retryAfter : ℕ)
  deriving DecidableEq

/-- The `Map` of a limiter. -/
abbrev RateLimits (K : Type) := K → Option RateLimitEntry

/-- `now - entry.windowStart >= windowMs`. -/
def RateLimitEntry.expired (e : RateLimitEntry) (now : Time) (windowMs : ℕ) : Bool :=
  decide (e.windowStart + windowMs ≤ now)

section Functions

variable {K : Type} (map : RateLimits K) (key : K) (now : Time)

/-- The entry a request is counted in. -/
def openEntry (windowMs : ℕ) : RateLimitEntry :=
  ((map key).filter fun e => !e.expired now windowMs).getD ⟨0, now⟩

/-- `checkRateLimit`. -/
def checkRateLimit [DecidableEq K] (options : RateLimitOptions) (weight : ℕ) : RateLimitDecision × RateLimits K :=
  let entry := openEntry map key now options.windowMs
  if options.max < entry.count + weight then
    let retryAfter := (entry.windowStart + options.windowMs - now + 999) / 1000
    (.limited (entry.count + 1) retryAfter,
      Function.update map key (some { entry with count := entry.count + 1 }))
  else
    (.unlimited, Function.update map key (some { entry with count := entry.count + weight }))

/-- `pruneExpiredEntries`. -/
def pruneExpiredEntries (windowMs : ℕ) : RateLimits K := fun key =>
  (map key).filter fun e => !e.expired now windowMs

/-- The `limited` of a decision. -/
def RateLimitDecision.isLimited : RateLimitDecision → Bool
  | .unlimited => false
  | .limited _ _ => true

/-- The count of a decision that refuses. -/
def RateLimitDecision.count? : RateLimitDecision → Option ℕ
  | .unlimited => none
  | .limited count _ => some count

end Functions

/-! ## What an entry says of the requests so far -/

/-- An entry of a key whose requests were taken, or refused, at the times. -/
structure Tracks (max W : ℕ) (taken refused : List Time) (now : Time)
    (entry : Option RateLimitEntry) : Prop where
  upTo : UpTo now taken
  within : Within W max taken
  refused_before : ∀ t ∈ refused, ∃ w, (starts W taken).head? = some w ∧ t < w + W
  missing : entry = none → current W taken now = none
  start : ∀ e ∈ entry, (starts W taken).head? = some e.windowStart
  count : ∀ e ∈ entry,
    e.count = FixedWindow.count W e.windowStart taken + FixedWindow.count W e.windowStart refused
  full : ∀ e ∈ entry, FixedWindow.count W e.windowStart refused ≠ 0 →
    max ≤ FixedWindow.count W e.windowStart taken

section Entries

variable {max W : ℕ} {taken refused : List Time} {now later : Time} {entry : Option RateLimitEntry}
  {e : RateLimitEntry}

theorem expired_eq_false : e.expired now W = false ↔ now < e.windowStart + W := by
  unfold RateLimitEntry.expired
  rw [decide_eq_false_iff_not, not_le]

theorem Tracks.nothing : Tracks max W [] [] now none where
  upTo := UpTo.nil
  within _ h := absurd h List.not_mem_nil
  refused_before _ h := absurd h List.not_mem_nil
  missing _ := rfl
  start _ h := by cases h
  count _ h := by cases h
  full _ h := by cases h

theorem Tracks.mono (h : Tracks max W taken refused now entry) (hle : now ≤ later) :
    Tracks max W taken refused later entry :=
  { h with
    upTo := h.upTo.mono hle
    missing := fun hnone => current_none_mono hle (h.missing hnone) }

/-- An entry whose window goes on has the current window. -/
theorem Tracks.current_of_live (h : Tracks max W taken refused now (some e))
    (hlive : now < e.windowStart + W) : current W taken now = some e.windowStart :=
  current_eq_some.mpr ⟨h.start e rfl, hlive⟩

/-- A window that goes on has an entry. -/
theorem Tracks.entry_of_current (h : Tracks max W taken refused now entry) {w : ℕ}
    (hw : current W taken now = some w) :
    ∃ e, entry = some e ∧ e.windowStart = w ∧ now < e.windowStart + W := by
  cases hentry : entry with
  | none => rw [h.missing hentry] at hw; cases hw
  | some e =>
    obtain ⟨hhead, hlt⟩ := current_eq_some.mp hw
    have hstart : e.windowStart = w := Option.some.inj ((h.start e hentry).symm.trans hhead)
    exact ⟨e, rfl, hstart, hstart ▸ hlt⟩

/-- Without a window that goes on, what is stored is over. -/
theorem Tracks.filter_eq_none (h : Tracks max W taken refused now entry)
    (hnone : current W taken now = none) :
    entry.filter (fun e => !e.expired now W) = none := by
  refine Option.filter_eq_none_iff.mpr fun e he hlive => ?_
  rw [Bool.not_eq_true', expired_eq_false] at hlive
  exact absurd (current_eq_none.mp hnone _ (h.start e he)) (not_le.mpr hlive)

/-- **Pruning.** -/
theorem Tracks.prune (h : Tracks max W taken refused now entry) :
    Tracks max W taken refused now (entry.filter fun e => !e.expired now W) := by
  cases hcur : current W taken now with
  | none =>
    rw [h.filter_eq_none hcur]
    exact { h with
      missing := fun _ => hcur
      start := fun _ he => by cases he
      count := fun _ he => by cases he
      full := fun _ he => by cases he }
  | some w =>
    obtain ⟨e, rfl, _, hlive⟩ := h.entry_of_current hcur
    rw [Option.filter_some, if_pos (by rw [expired_eq_false.mpr hlive]; rfl)]
    exact h

end Entries

section Requests

variable {K : Type} {map : RateLimits K} {key : K} {max W : ℕ}
  {taken refused : List Time} {now : Time}

theorem openEntry_of_none (h : Tracks max W taken refused now (map key))
    (hnone : current W taken now = none) : openEntry map key now W = ⟨0, now⟩ := by
  unfold openEntry
  rw [h.filter_eq_none hnone]
  rfl

theorem openEntry_of_live {e : RateLimitEntry} (he : map key = some e)
    (hlive : now < e.windowStart + W) : openEntry map key now W = e := by
  unfold openEntry
  rw [he, Option.filter_some, if_pos (by rw [expired_eq_false.mpr hlive]; rfl)]
  rfl

/-- The entry a request is counted in counts the window that `now` falls into. -/
theorem openEntry_count (h : Tracks max W taken refused now (map key))
    (hroom : used W taken now < max) :
    (openEntry map key now W).count = used W taken now := by
  cases hcur : current W taken now with
  | none => rw [openEntry_of_none h hcur, used_eq_zero hcur]
  | some w =>
    obtain ⟨e, he, rfl, hlive⟩ := h.entry_of_current hcur
    rw [openEntry_of_live he hlive, h.count e he, used_eq_of_some hcur]
    rw [used_eq_of_some hcur] at hroom
    by_cases hzero : FixedWindow.count W e.windowStart refused = 0
    · rw [hzero, Nat.add_zero]
    · exact absurd (h.full e he hzero) (not_le.mpr hroom)

variable [DecidableEq K]

/-- **A request that its window has room for.** -/
theorem checkRateLimit_of_room (hW : 0 < W) (h : Tracks max W taken refused now (map key))
    (hroom : used W taken now < max) :
    (checkRateLimit map key now ⟨max, W⟩ 1).1 = .unlimited ∧
      ∃ e, (checkRateLimit map key now ⟨max, W⟩ 1).2 = Function.update map key (some e) ∧
        Tracks max W (now :: taken) refused now (some e) := by
  have hcount := openEntry_count h hroom
  have hfits : ¬max < (openEntry map key now W).count + 1 := by omega
  unfold checkRateLimit
  rw [if_neg hfits]
  refine ⟨rfl, _, rfl, ?_⟩
  cases hcur : current W taken now with
  | none =>
    rw [openEntry_of_none h hcur]
    have hearlier : ∀ t ∈ taken, t < now := fun t ht => lt_of_current_none hW h.upTo hcur ht
    have hbefore : ∀ t ∈ refused, t < now := fun t ht => by
      obtain ⟨w, hw, hlt⟩ := h.refused_before t ht
      exact hlt.trans_le (current_eq_none.mp hcur w hw)
    have hhead : (starts W (now :: taken)).head? = some now := by
      rw [starts_cons_of_none hcur]; rfl
    have hone : FixedWindow.count W now (now :: taken) = 1 := by
      rw [count_cons, count_eq_zero hearlier, if_pos ⟨le_rfl, Nat.lt_add_of_pos_right hW⟩]
    exact {
      upTo := h.upTo.cons
      within := h.within.cons hW h.upTo hroom
      refused_before := fun t ht => ⟨now, hhead, (hbefore t ht).trans (Nat.lt_add_of_pos_right hW)⟩
      missing := fun hnone => by cases hnone
      start := fun e he => by cases he; exact hhead
      count := fun e he => by
        cases he
        show 0 + 1 = FixedWindow.count W now (now :: taken) + FixedWindow.count W now refused
        rw [hone, count_eq_zero hbefore]
      full := fun e he hne => by
        cases he
        exact absurd (count_eq_zero hbefore) hne }
  | some w =>
    obtain ⟨e, he, rfl, hlive⟩ := h.entry_of_current hcur
    rw [openEntry_of_live he hlive]
    have hstarts := starts_cons_of_some hcur
    have hle : e.windowStart ≤ now :=
      h.upTo.le (mem_of_mem_starts (List.mem_of_head? (h.start e he)))
    have hone : FixedWindow.count W e.windowStart (now :: taken) =
        FixedWindow.count W e.windowStart taken + 1 := by
      rw [count_cons, if_pos ⟨hle, hlive⟩]
    exact {
      upTo := h.upTo.cons
      within := h.within.cons hW h.upTo hroom
      refused_before := by rw [hstarts]; exact h.refused_before
      missing := fun hnone => by cases hnone
      start := fun e' he' => by cases he'; rw [hstarts]; exact h.start e he
      count := fun e' he' => by
        cases he'
        show e.count + 1 = FixedWindow.count W e.windowStart (now :: taken) +
          FixedWindow.count W e.windowStart refused
        rw [hone, h.count e he]
        omega
      full := fun e' he' hne => by
        cases he'
        have := h.full e he hne
        show max ≤ FixedWindow.count W e.windowStart (now :: taken)
        omega }

/-- **A request whose window is full.** -/
theorem checkRateLimit_of_full (h : Tracks max W taken refused now (map key)) (hmax : 0 < max)
    (hfull : max ≤ used W taken now) :
    (checkRateLimit map key now ⟨max, W⟩ 1).1.isLimited = true ∧
      ∃ w, current W taken now = some w ∧ (checkRateLimit map key now ⟨max, W⟩ 1).1.count? =
        some (max + 1 + FixedWindow.count W w refused) ∧
      ∃ e, (checkRateLimit map key now ⟨max, W⟩ 1).2 = Function.update map key (some e) ∧
        Tracks max W taken (now :: refused) now (some e) := by
  cases hcur : current W taken now with
  | none => rw [used_eq_zero hcur] at hfull; omega
  | some w =>
    obtain ⟨e, he, rfl, hlive⟩ := h.entry_of_current hcur
    have hstart := h.start e he
    have hmem : e.windowStart ∈ starts W taken := List.mem_of_head? hstart
    have hle : e.windowStart ≤ now := h.upTo.le (mem_of_mem_starts hmem)
    have hwithin := h.within _ hmem
    have hcount := h.count e he
    rw [used_eq_of_some hcur] at hfull
    have hlimited : max < e.count + 1 := by omega
    unfold checkRateLimit
    rw [openEntry_of_live he hlive, if_pos hlimited]
    refine ⟨rfl, e.windowStart, rfl, congrArg some (by omega), _, rfl, ?_⟩
    have hone : FixedWindow.count W e.windowStart (now :: refused) =
        FixedWindow.count W e.windowStart refused + 1 := by
      rw [count_cons, if_pos ⟨hle, hlive⟩]
    exact {
      upTo := h.upTo
      within := h.within
      refused_before := fun t ht => by
        rcases List.mem_cons.mp ht with rfl | ht
        · exact ⟨_, hstart, hlive⟩
        · exact h.refused_before t ht
      missing := fun hnone => by cases hnone
      start := fun e' he' => by cases he'; exact hstart
      count := fun e' he' => by
        cases he'
        show e.count + 1 = FixedWindow.count W e.windowStart taken +
          FixedWindow.count W e.windowStart (now :: refused)
        rw [hone, hcount]
        omega
      full := fun e' he' _ => by cases he'; exact hfull }

end Requests

end BunMail.Middleware
