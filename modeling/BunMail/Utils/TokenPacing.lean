import Mathlib.Tactic.Linarith
import Mathlib.Tactic.Positivity
import Mathlib.Tactic.FieldSimp
import BunMail.Utils.TokenBuckets

/-!
# Pacing by token buckets

What a key is granted in an interval is what its bucket held when the interval began and what flowed
into it since.  Both stores answer as one bucket that is never dropped: a bucket that is dropped is
full, and a full bucket is the same as none.
-/

namespace BunMail.Utils.Tokens

open Timed

section Level

variable {rate : TokenRate} {b : Bucket} {now later : Time}

theorem TokenRate.perMs_pos (rate : TokenRate) : 0 < rate.perMs :=
  div_pos rate.perMinute_pos (by norm_num)

theorem Bucket.level_le : b.level rate now ≤ rate.capacity := by
  cases b with
  | none => exact le_rfl
  | some s => exact min_le_left _ _

/-- What a bucket gains is what flows in. -/
theorem Bucket.level_le_add (rate : TokenRate) (b : Bucket) (now later : Time) :
    b.level rate later ≤ b.level rate now + (later - now : ℕ) * rate.perMs := by
  have hr := rate.perMs_pos.le
  cases b with
  | none => exact le_add_of_nonneg_right (by positivity)
  | some s =>
    simp only [Bucket.level, Option.elim_some]
    rw [← min_add_add_right]
    refine min_le_min (le_add_of_nonneg_right (by positivity)) ?_
    have hsub : ((later - s.2 : ℕ) : ℚ) ≤ (later - now : ℕ) + (now - s.2 : ℕ) := by
      exact_mod_cast tsub_le_tsub_add_tsub
    nlinarith

theorem Bucket.level_mono (h : now ≤ later) : b.level rate now ≤ b.level rate later := by
  have hr := rate.perMs_pos.le
  cases b with
  | none => exact le_rfl
  | some s =>
    refine min_le_min le_rfl ?_
    have hsub : ((now - s.2 : ℕ) : ℚ) ≤ (later - s.2 : ℕ) := by
      exact_mod_cast Nat.sub_le_sub_right h s.2
    nlinarith

/-- A take leaves no less than nothing. -/
def Bucket.Sound (b : Bucket) : Prop := ∀ s ∈ b, 0 ≤ s.1

theorem Bucket.Sound.level_nonneg (h : b.Sound) (rate : TokenRate) (now : Time) :
    0 ≤ b.level rate now := by
  have hr := rate.perMs_pos.le
  cases b with
  | none => exact Nat.cast_nonneg _
  | some s =>
    have hs : 0 ≤ s.1 := h s rfl
    exact le_min (Nat.cast_nonneg _) (by positivity)

theorem granted_le {before : ℚ} (h : 0 ≤ before) (count : ℕ) :
    ((min count ⌊before⌋₊ : ℕ) : ℚ) ≤ before :=
  (Nat.cast_le.mpr (min_le_right _ _)).trans (Nat.floor_le h)

theorem Bucket.Sound.take (h : b.Sound) (key : Text) (a : Take) : (b.take key a).2.Sound := by
  intro s hs
  unfold Bucket.take at hs
  dsimp only at hs
  split_ifs at hs
  · cases hs
    exact sub_nonneg.mpr (granted_le (h.level_nonneg _ _) _)
  · exact h s hs

end Level

/-! ## The memory store -/

section Memory

variable {rate : TokenRate} {b : Bucket} {now later : Time} {k : Text} {m : MemoryTokenBuckets}
  {a : Take}

/-- The store answers for the key `k` as the bucket `b` does, from `now` on. -/
structure MemoryFits (k : Text) (rate : TokenRate) (now : Time) (m : MemoryTokenBuckets)
    (b : Bucket) : Prop where
  rate_eq : ∀ state, m.get? k = some state → state.rate = rate
  refill_eq : ∀ x, now ≤ x → m.refill k x rate = b.level rate x

/-- **The sweep.** It drops `k` only when its bucket is full, and then stays full. -/
theorem MemoryFits.sweep (h : MemoryFits k rate now m b) (hle : now ≤ later) :
    MemoryFits k rate later (m.sweep later) b := by
  unfold MemoryTokenBuckets.sweep
  split_ifs
  · exact ⟨h.rate_eq, fun x hx => h.refill_eq x (hle.trans hx)⟩
  · constructor
    · intro state hs
      rw [Table.get?_deleteWhere, Option.filter_eq_some_iff] at hs
      exact h.rate_eq state hs.1
    · intro x hx
      rw [← h.refill_eq x (hle.trans hx)]
      unfold MemoryTokenBuckets.refill
      rw [Table.get?_deleteWhere]
      cases hs : m.get? k with
      | none => rfl
      | some state =>
        rw [Option.filter_some]
        split_ifs with hfull
        · rfl
        · rw [Bool.not_eq_true', decide_eq_false_iff_not, not_not, h.rate_eq state hs] at hfull
          have hfull : (rate.capacity : ℚ) ≤ b.level rate later := by
            rw [← h.refill_eq later hle]
            exact hfull
          have hx' : m.refill k x rate = rate.capacity := by
            rw [h.refill_eq x (hle.trans hx)]
            exact le_antisymm Bucket.level_le (hfull.trans (Bucket.level_mono hx))
          rw [MemoryTokenBuckets.refill, hs] at hx'
          exact hx'.symm

theorem MemoryFits.takeNow (h : MemoryFits k rate now m b) (hle : now ≤ a.time)
    (hrate : a.key = k → a.rate = rate) :
    (decide (a.key = k) = true → (m.takeNow a).1 = (b.take k a).1) ∧
      MemoryFits k rate a.time (m.takeNow a).2 (b.take k a).2 := by
  have hs := h.sweep hle
  by_cases hk : a.key = k
  · have hr := hrate hk
    have hbefore : (m.sweep a.time).refill a.key a.time a.rate = b.level a.rate a.time := by
      rw [hk, hr]
      exact hs.refill_eq a.time le_rfl
    unfold MemoryTokenBuckets.takeNow Bucket.take
    dsimp only
    rw [hbefore, if_pos hk, hk, hr]
    refine ⟨fun _ => rfl, fun state hst => ?_, fun x _ => ?_⟩
    · rw [Table.get?_put_self] at hst
      cases hst
      rfl
    · unfold MemoryTokenBuckets.refill
      rw [Table.get?_put_self]
      rfl
  · refine ⟨fun hd => absurd (of_decide_eq_true hd) hk, ?_⟩
    unfold MemoryTokenBuckets.takeNow Bucket.take
    dsimp only
    rw [if_neg hk]
    have hget : ∀ v, ((m.sweep a.time).put a.key v).get? k = (m.sweep a.time).get? k :=
      fun v => Table.get?_put_ne (Ne.symm hk)
    refine ⟨fun state hst => hs.rate_eq state (by rw [← hget]; exact hst), fun x hx => ?_⟩
    rw [← hs.refill_eq x hx]
    unfold MemoryTokenBuckets.refill
    rw [hget]

theorem memoryFits_empty : MemoryFits k rate now Table.empty none :=
  ⟨fun _ h => absurd h (by simp [Table.get?, Table.find?, Table.empty]), fun _ _ => rfl⟩

end Memory

/-! ## The Redis store -/

section Redis

variable {rate : TokenRate} {b : Bucket} {now later : Time} {k : Text} {r : RedisTokenBuckets}
  {a : Take}

/-- The script answers for the key `k` as the bucket `b` does, from `now` on. -/
def RedisFits (k : Text) (rate : TokenRate) (now : Time) (r : RedisTokenBuckets) (b : Bucket) :
    Prop :=
  ∀ x, now ≤ x → r.tokens k x rate = b.level rate x

theorem redisFits_empty : RedisFits k rate now Table.empty none := fun _ _ => rfl

/-- **The expiry.** The key lives until its bucket is full. -/
theorem full_of_ttl {left : ℚ} {x : Time}
    (h : now + max 1 ⌈((rate.capacity : ℚ) - left) / rate.perMs⌉₊ ≤ x) :
    rate.capacity ≤ left + (x - now : ℕ) * rate.perMs := by
  have hr := rate.perMs_pos
  have hle : ⌈((rate.capacity : ℚ) - left) / rate.perMs⌉₊ ≤ x - now :=
    (le_max_right 1 _).trans (Nat.le_sub_of_add_le' h)
  have hceil := Nat.ceil_le.mp hle
  rw [div_le_iff₀ hr] at hceil
  linarith

theorem RedisFits.takeTokens (h : RedisFits k rate now r b) (hle : now ≤ a.time)
    (hrate : a.key = k → a.rate = rate) :
    (decide (a.key = k) = true → (r.takeTokens a).1 = (b.take k a).1) ∧
      RedisFits k rate a.time (r.takeTokens a).2 (b.take k a).2 := by
  by_cases hk : a.key = k
  · have hr := hrate hk
    have hbefore : r.tokens a.key a.time a.rate = b.level a.rate a.time := by
      rw [hk, hr]
      exact h a.time hle
    unfold RedisTokenBuckets.takeTokens Bucket.take
    dsimp only
    rw [hbefore, if_pos hk, hk, hr]
    generalize hg : min a.count ⌊b.level rate a.time⌋₊ = granted
    have hgc : granted ≤ a.count := hg ▸ min_le_left _ _
    refine ⟨fun _ => ?_, fun x hx => ?_⟩
    · congr 1
      rcases hgc.lt_or_eq with hlt | heq
      · rw [if_pos hlt, if_neg hlt.ne]
      · rw [if_neg heq.not_lt, if_pos heq]
    · unfold RedisTokenBuckets.tokens RedisTokenBuckets.hmget
      rw [Table.get?_put_self, Option.filter_some]
      split_ifs with hlive
      · rfl
      · rw [decide_eq_true_iff, not_lt] at hlive
        exact (min_eq_left (full_of_ttl hlive)).symm
  · refine ⟨fun hd => absurd (of_decide_eq_true hd) hk, fun x hx => ?_⟩
    unfold RedisTokenBuckets.takeTokens Bucket.take
    dsimp only
    rw [if_neg hk, ← h x (hle.trans hx)]
    unfold RedisTokenBuckets.tokens RedisTokenBuckets.hmget
    rw [Table.get?_put_ne (Ne.symm hk)]

end Redis

/-! ## What a key is granted -/

/-- The tokens granted to the key in the interval. -/
def grantedIn (k : Text) (s t : Time) (h : List (Take × TokenGrant)) : ℕ :=
  ((h.filter fun e => decide (e.1.key = k ∧ s ≤ e.1.time ∧ e.1.time ≤ t)).map (·.2.granted)).sum

section Bound

variable {rate : TokenRate} {b : Bucket} {now s t : Time} {k : Text} {as : List Take} {a : Take}

theorem grantedIn_cons (e : Take × TokenGrant) (h : List (Take × TokenGrant)) :
    grantedIn k s t (e :: h) =
      (if e.1.key = k ∧ s ≤ e.1.time ∧ e.1.time ≤ t then e.2.granted else 0) + grantedIn k s t h := by
  unfold grantedIn
  rw [List.filter_cons]
  split_ifs with h₁ h₂ h₂
  · rw [List.map_cons, List.sum_cons]
  · exact absurd (of_decide_eq_true h₁) h₂
  · exact absurd (decide_eq_true h₂) h₁
  · rw [zero_add]

theorem grantedIn_eq_zero (ht : Ticks Take.time now as) (h : t < now) :
    grantedIn k s t (history (Bucket.take k) b as) = 0 := by
  induction as generalizing now b with
  | nil => rfl
  | cons a as ih =>
    have hlt : t < a.time := lt_of_lt_of_le h ht.1
    rw [history, grantedIn_cons, if_neg fun hin => absurd hin.2.2 (not_le.mpr hlt), zero_add]
    exact ih ht.2 hlt

/-- What is left in the bucket is what it held less what it granted. -/
theorem level_take_le (hk : a.key = k) (hrate : a.rate = rate) :
    (b.take k a).2.level rate a.time + (b.take k a).1.granted ≤ b.level rate a.time := by
  unfold Bucket.take
  dsimp only
  rw [if_pos hk, hrate]
  have : Bucket.level rate (some (b.level rate a.time -
      (min a.count ⌊b.level rate a.time⌋₊ : ℕ), a.time)) a.time ≤
        b.level rate a.time - (min a.count ⌊b.level rate a.time⌋₊ : ℕ) := by
    unfold Bucket.level
    rw [Option.elim_some]
    refine (min_le_right _ _).trans (le_of_eq ?_)
    simp
  linarith

/-- What is granted until `t` was there, or has flowed in. -/
theorem granted_until (hs : b.Sound) (ht : Ticks Take.time now as) (hnow : now ≤ t)
    (hrate : ∀ a ∈ as, a.key = k → a.rate = rate) :
    (grantedIn k s t (history (Bucket.take k) b as) : ℚ) ≤
      b.level rate now + (t - now : ℕ) * rate.perMs := by
  have hpos := rate.perMs_pos.le
  induction as generalizing now b with
  | nil =>
    have hlevel := hs.level_nonneg rate now
    show ((0 : ℕ) : ℚ) ≤ _
    rw [Nat.cast_zero]
    positivity
  | cons a as ih =>
    have hlevel := hs.level_nonneg rate now
    by_cases hat : a.time ≤ t
    · have hrest := ih (hs.take k a) ht.2 hat fun c hc => hrate c (List.mem_cons_of_mem _ hc)
      -- from `now` to the take, then from the take to `t`
      have hflow : b.level rate a.time + (t - a.time : ℕ) * rate.perMs ≤
          b.level rate now + (t - now : ℕ) * rate.perMs := by
        have hadd := Bucket.level_le_add rate b now a.time
        have hsplit : ((t - now : ℕ) : ℚ) = (t - a.time : ℕ) + (a.time - now : ℕ) := by
          exact_mod_cast (Nat.sub_add_sub_cancel hat ht.1).symm
        rw [hsplit, add_mul]
        linarith
      rw [history, grantedIn_cons, Nat.cast_add]
      by_cases hk : a.key = k
      · have hleft := level_take_le (b := b) hk (hrate a List.mem_cons_self hk)
        have hcount : ((if a.key = k ∧ s ≤ a.time ∧ a.time ≤ t then (b.take k a).1.granted else 0 : ℕ) :
            ℚ) ≤ (b.take k a).1.granted := by
          split_ifs
          · exact le_rfl
          · exact Nat.cast_le.mpr (Nat.zero_le _)
        linarith
      · have hsame : (b.take k a).2 = b := if_neg hk
        rw [if_neg fun hin => hk hin.1, Nat.cast_zero, zero_add]
        refine hrest.trans ?_
        rw [hsame]
        exact hflow
    · have hzero : grantedIn k s t (history (Bucket.take k) b (a :: as)) = 0 :=
        grantedIn_eq_zero (show Ticks Take.time a.time (a :: as) from ⟨le_rfl, ht.2⟩) (not_le.mp hat)
      rw [hzero, Nat.cast_zero]
      positivity

theorem granted_between (hs : b.Sound) (ht : Ticks Take.time now as) (hst : s ≤ t)
    (hrate : ∀ a ∈ as, a.key = k → a.rate = rate) :
    (grantedIn k s t (history (Bucket.take k) b as) : ℚ) ≤
      rate.capacity + (t - s : ℕ) * rate.perMs := by
  have hpos := rate.perMs_pos.le
  induction as generalizing now b with
  | nil =>
    show ((0 : ℕ) : ℚ) ≤ _
    rw [Nat.cast_zero]
    positivity
  | cons a as ih =>
    by_cases hsa : s ≤ a.time
    · have hticks : Ticks Take.time s (a :: as) := ⟨hsa, ht.2⟩
      have hlevel : b.level rate s ≤ rate.capacity := Bucket.level_le
      have := granted_until (s := s) hs hticks hst hrate
      linarith
    · rw [history, grantedIn_cons, if_neg fun hin => hsa hin.2.1, zero_add]
      exact ih (hs.take k a) ht.2 fun c hc => hrate c (List.mem_cons_of_mem _ hc)

end Bound

/-! ## The wait -/

section Wait

variable {rate : TokenRate} {b : Bucket} {k : Text} {a c : Take}

/-- A take that gets fewer tokens than it asks for leaves less than one. -/
theorem left_of_granted_lt (hs : b.Sound) (hk : a.key = k) (hrate : a.rate = rate)
    (hlt : (b.take k a).1.granted < a.count) :
    ∃ left, (b.take k a).2 = some (left, a.time) ∧ 0 ≤ left ∧ left < 1 ∧
      (b.take k a).1.waitMs = ⌈(1 - left) / rate.perMs⌉₊ := by
  unfold Bucket.take at hlt ⊢
  dsimp only at hlt ⊢
  rw [hrate] at hlt ⊢
  rw [if_pos hk]
  have hnonneg := hs.level_nonneg rate a.time
  have hfloor : min a.count ⌊b.level rate a.time⌋₊ = ⌊b.level rate a.time⌋₊ :=
    (min_choice _ _).resolve_left hlt.ne
  rw [hfloor] at hlt ⊢
  refine ⟨_, rfl, sub_nonneg.mpr (Nat.floor_le hnonneg), ?_, if_neg hlt.ne⟩
  have := Nat.lt_floor_add_one (b.level rate a.time)
  linarith

/-- A take of one token gets it exactly when the bucket holds one. -/
theorem granted_one (hc : c.count = 1) (hrate : c.rate = rate) :
    (b.take k c).1.granted = if 1 ≤ b.level rate c.time then 1 else 0 := by
  unfold Bucket.take
  dsimp only
  rw [hc, hrate]
  split_ifs with h
  · exact min_eq_left (Nat.le_floor (by exact_mod_cast h))
  · rw [Nat.floor_eq_zero.mpr (not_le.mp h), min_eq_right (Nat.zero_le _)]

/-- The bucket holds a token after the wait, and none a millisecond before. -/
theorem level_wait {left : ℚ} {now : Time} (h : left < 1) {w : ℕ}
    (hw : w = ⌈(1 - left) / rate.perMs⌉₊) :
    1 ≤ Bucket.level rate (some (left, now)) (now + w) ∧
      ∀ x, x + 1 = now + w → Bucket.level rate (some (left, now)) x < 1 := by
  have hpos := rate.perMs_pos
  have hcap : (1 : ℚ) ≤ rate.capacity := by exact_mod_cast rate.capacity_pos
  unfold Bucket.level
  simp only [Option.elim_some]
  constructor
  · refine le_min hcap ?_
    have hceil : (1 - left) / rate.perMs ≤ w := hw ▸ Nat.le_ceil _
    rw [div_le_iff₀ hpos] at hceil
    rw [show (now + w - now : ℕ) = w from Nat.add_sub_cancel_left (n := now) (m := w)]
    linarith
  · intro x hx
    refine lt_of_le_of_lt (min_le_right _ _) ?_
    have hwpos : 0 < w := by
      rw [hw, Nat.ceil_pos]
      exact div_pos (sub_pos.mpr h) hpos
    have hlt : x < now + w := Nat.lt_of_succ_le hx.le
    have hle : now ≤ x := Nat.le_of_lt_succ (lt_of_lt_of_eq (Nat.lt_add_of_pos_right hwpos) hx.symm)
    have hbefore : x - now < w := (Nat.sub_lt_iff_lt_add' hle).mpr hlt
    rw [hw, Nat.lt_ceil, lt_div_iff₀ hpos] at hbefore
    linarith

end Wait

/-! ## Every run -/

/-- The bucket of a key after the takes. -/
def bucketOf (k : Text) (as : List Take) : Bucket := final (Bucket.take k) none as

/-- The answer of the memory store to a take after the others. -/
def answerAfter (as : List Take) (a : Take) : TokenGrant :=
  (MemoryTokenBuckets.takeNow (final MemoryTokenBuckets.takeNow Table.empty as) a).1

/-- What the answers to the takes of a key keep to. -/
structure Paced (k : Text) (rate : TokenRate) (as : List Take) : Prop where
  bounded : ∀ s t, s ≤ t →
    (grantedIn k s t (history MemoryTokenBuckets.takeNow Table.empty as) : ℚ) ≤
      rate.capacity + rate.perMinute * (t - s : ℕ) / 60000
  whole : ∀ pre a post, as = pre ++ a :: post → a.key = k →
    (answerAfter pre a).granted = min a.count ⌊(bucketOf k pre).level rate a.time⌋₊
  waits : ∀ pre a post c, as = pre ++ a :: post ++ [c] → a.key = k → c.key = k → c.count = 1 →
    (∀ o ∈ post, o.key ≠ k) → (answerAfter pre a).granted < a.count →
      (c.time = a.time + (answerAfter pre a).waitMs →
        (answerAfter (pre ++ a :: post) c).granted = 1) ∧
      (c.time + 1 = a.time + (answerAfter pre a).waitMs →
        (answerAfter (pre ++ a :: post) c).granted = 0)
  unswept : (history MemoryTokenBuckets.takeNow Table.empty as).filter
      (fun e => decide (e.1.key = k)) =
    (history (Bucket.take k) none as).filter fun e => decide (e.1.key = k)
  redis : (history RedisTokenBuckets.takeTokens Table.empty as).filter
      (fun e => decide (e.1.key = k)) =
    (history MemoryTokenBuckets.takeNow Table.empty as).filter fun e => decide (e.1.key = k)

section Runs

variable {k : Text} {rate : TokenRate} {as : List Take} {a : Take}

theorem sound_bucketOf (k : Text) (as : List Take) : (bucketOf k as).Sound := by
  unfold bucketOf final
  induction as using List.reverseRecOn with
  | nil => exact fun s hs => by cases hs
  | append_singleton as a ih =>
    rw [List.foldl_append]
    exact ih.take k a

/-- After any takes, the memory store answers for the key as its bucket. -/
theorem memoryFits_final (ht : Ticks Take.time 0 as) (hrate : ∀ a ∈ as, a.key = k → a.rate = rate) :
    MemoryFits k rate (lastTime Take.time 0 as) (final MemoryTokenBuckets.takeNow Table.empty as)
      (bucketOf k as) :=
  relates (MemoryFits k rate) (fun _ _ _ _ h hle hr => (h.takeNow hle hr).2) memoryFits_empty ht
    hrate

theorem answerAfter_eq (ht : Ticks Take.time 0 (as ++ [a]))
    (hrate : ∀ c ∈ as ++ [a], c.key = k → c.rate = rate) (hk : a.key = k) :
    answerAfter as a = ((bucketOf k as).take k a).1 := by
  obtain ⟨hticks, hlast, _⟩ := ticks_append.mp ht
  have hfits := memoryFits_final hticks fun c hc => hrate c (List.mem_append_left _ hc)
  have hr := hrate a (List.mem_append_right _ (List.mem_singleton_self _))
  exact (hfits.takeNow hlast hr).1 (decide_eq_true hk)

theorem bucketOf_append_others {post : List Take} (h : ∀ o ∈ post, o.key ≠ k) (pre : List Take) :
    bucketOf k (pre ++ post) = bucketOf k pre := by
  unfold bucketOf
  rw [final_append]
  induction post using List.reverseRecOn with
  | nil => rfl
  | append_singleton post o ih =>
    rw [final_append, ih fun c hc => h c (List.mem_append_left _ hc)]
    exact if_neg (h o (List.mem_append_right _ (List.mem_singleton_self _)))

end Runs

/-- **Token bucket pacing.** -/
theorem paced (k : Text) (rate : TokenRate) (as : List Take) (ht : Ticks Take.time 0 as)
    (hrate : ∀ a ∈ as, a.key = k → a.rate = rate) : Paced k rate as := by
  have hmemory := history_eq (fun a : Take => decide (a.key = k)) (MemoryFits k rate)
    (fun _ _ _ _ h hle hr => h.takeNow hle hr) memoryFits_empty ht hrate
  have hredis := history_eq (fun a : Take => decide (a.key = k)) (RedisFits k rate)
    (fun _ _ _ _ h hle hr => h.takeTokens hle hr) redisFits_empty ht hrate
  refine ⟨fun s t hst => ?_, fun pre a post has hk => ?_, ?_, hmemory, hredis.trans hmemory.symm⟩
  · have hbound := granted_between (b := none) (fun s hs => by cases hs) ht hst hrate
    have hsame : grantedIn k s t (history MemoryTokenBuckets.takeNow Table.empty as) =
        grantedIn k s t (history (Bucket.take k) none as) := by
      have hfilter : ∀ h : List (Take × TokenGrant), grantedIn k s t h =
          grantedIn k s t (h.filter fun e => decide (e.1.key = k)) := by
        intro h
        unfold grantedIn
        rw [List.filter_filter]
        congr 2
        refine List.filter_congr fun e _ => ?_
        by_cases hk : e.1.key = k <;> simp [hk]
      rw [hfilter, hmemory, ← hfilter]
    rw [hsame]
    refine hbound.trans (le_of_eq ?_)
    unfold TokenRate.perMs
    ring
  · rw [has, show pre ++ a :: post = (pre ++ [a]) ++ post by simp] at ht
    have hr : ∀ c ∈ pre ++ [a], c.key = k → c.rate = rate := by
      intro c hc
      refine hrate c ?_
      rw [has]
      simpa [or_assoc] using (List.mem_append.mp hc).elim (fun h => .inl h) fun h =>
        .inr (.inl (List.mem_singleton.mp h))
    rw [answerAfter_eq (ticks_append.mp ht).1 hr hk, ← hr a (by simp) hk]
    rfl
  · rintro pre a post c has hk hck hcount hothers hlt
    have hmem : ∀ o ∈ pre ++ a :: post ++ [c], o.key = k → o.rate = rate := has ▸ hrate
    rw [has] at ht
    have hta : Ticks Take.time 0 (pre ++ [a]) := by
      rw [show pre ++ a :: post ++ [c] = (pre ++ [a]) ++ (post ++ [c]) by simp] at ht
      exact (ticks_append.mp ht).1
    have hra : ∀ o ∈ pre ++ [a], o.key = k → o.rate = rate := by
      intro o ho
      refine hmem o ?_
      simp only [List.mem_append, List.mem_cons, List.not_mem_nil, or_false] at ho ⊢
      tauto
    rw [answerAfter_eq hta hra hk] at hlt ⊢
    rw [answerAfter_eq ht hmem hck]
    obtain ⟨left, hstate, _, hleft, hwait⟩ :=
      left_of_granted_lt (sound_bucketOf k pre) hk (hra a (by simp) hk) hlt
    have hbucket : bucketOf k (pre ++ a :: post) = some (left, a.time) := by
      rw [show pre ++ a :: post = (pre ++ [a]) ++ post by simp, bucketOf_append_others hothers,
        bucketOf, final_append]
      exact hstate
    rw [granted_one hcount (hmem c (by simp) hck), hbucket]
    obtain ⟨hafter, hbefore⟩ := level_wait hleft hwait
    constructor
    · intro hc
      rw [hc, if_pos hafter]
    · intro hc
      rw [if_neg (not_le.mpr (hbefore c.time hc))]

/-- A burst of three at sixty a minute and two at most, and the one it waits for. -/
theorem paced_burst :
    let rate : TokenRate := ⟨2, 60, by decide, by norm_num⟩
    Paced ['m', 'x'] rate [⟨0, ['m', 'x'], 3, rate⟩, ⟨1000, ['m', 'x'], 1, rate⟩] :=
  paced _ _ _ (by decide) (by simp)

end BunMail.Utils.Tokens
