import BunMail.TlsRpt.ReportDelivery

/-!
# A report over its runs

An address that is delivered, suppressed or skipped enters the row's delivered set and is left alone
from then on.  The row's attempt count bounds how often a delivery to one address has failed, as long
as every run that fails keeps the attempt it was claimed with: a run that is cut short gives its
attempt back, whatever has failed before.
-/

namespace BunMail.TlsRpt

open Calendar

/-! ## Hashes and the delivered set -/

section Hash

variable (sha256 : Text → Fin 32 → UInt8)

theorem ruaHash_ne_nil (key : Text) : ruaHash sha256 key ≠ [] := by
  intro h
  have hlen := congrArg List.length h
  rw [ruaHash, List.length_take, Text.length_toHex, List.length_ofFn] at hlen
  simp at hlen

theorem newline_notMem_ruaHash (key : Text) : '\n' ∉ ruaHash sha256 key := by
  intro h
  exact absurd (Text.all_toHex _ _ (List.mem_of_mem_take h)) (by decide)

/-- The delivered set is read back as it was written. -/
theorem deliveredOf_setDelivered (row : Report) {delivered : List Text}
    (h : ∀ hash ∈ delivered, ∃ key, hash = ruaHash sha256 key) :
    (row.setDelivered delivered).deliveredOf = delivered := by
  unfold Report.deliveredOf Report.setDelivered
  cases delivered with
  | nil => rfl
  | cons hash rest =>
    have hsplit : (['\n'].intercalate (hash :: rest)).splitOn '\n' = hash :: rest := by
      refine List.splitOn_intercalate '\n' (fun part hpart => ?_) (List.cons_ne_nil _ _)
      obtain ⟨key, rfl⟩ := h part hpart
      exact newline_notMem_ruaHash sha256 key
    have hne : ['\n'].intercalate (hash :: rest) ≠ [] := by
      intro hnil
      rw [hnil, List.splitOn_nil] at hsplit
      obtain ⟨key, rfl⟩ := h hash List.mem_cons_self
      exact ruaHash_ne_nil sha256 key (List.cons.inj hsplit).1.symm
    dsimp only
    rw [if_neg hne, hsplit]

theorem dedup_start {delivered : List Text} (h : delivered.Nodup) :
    (Loop.start delivered).done = delivered := by
  show delivered.reverse.dedup.reverse = delivered
  rw [List.dedup_eq_self.mpr (List.nodup_reverse.mpr h), List.reverse_reverse]

end Hash

theorem backoff?_eq_none {attempts : ℕ} (h : backoff? attempts = none) :
    attempts = 0 ∨ MAX_SEND_ATTEMPTS ≤ attempts := by
  unfold backoff? at h
  split_ifs at h with h0
  · exact .inl h0
  · rw [List.getElem?_eq_none_iff] at h
    unfold MAX_SEND_ATTEMPTS
    omega

theorem le_tomorrowWithJitter (now : Time) (jitter : Jitter) : now ≤ tomorrowWithJitter now jitter := by
  have h : now < (now / dayMs + 1) * dayMs :=
    Nat.lt_mul_of_div_lt (Nat.lt_succ_self _) (by decide)
  exact h.le.trans ((Nat.le_add_right _ _).trans (Nat.le_add_right _ _))

section Runs

variable {toLowerCase : Text → Text} {decodeURIComponent : Text → Option Text}
  {parseUrl : Text → Option Url} {ρ : Type} (sha256 : Text → Fin 32 → UInt8)

/-- No other run claims the row before this one has ended. -/
theorem not_due_claim (r : ReportRun toLowerCase decodeURIComponent parseUrl ρ) (row : Report)
    {now : Time} (h : now < r.endedAt) : ¬ (row.claim r.claimedAt).due now := fun hdue =>
  absurd (hdue.1.trans_lt (h.trans_le r.leased)) (lt_irrefl _)

/-! ## What a run must not do -/

/-- The loop is cut short, by the time budget or by the daily cap, after a delivery that failed. -/
def cutAfterFailure (r : ReportRun toLowerCase decodeURIComponent parseUrl ρ) :
    List Text → Bool → List Rua → Bool
  | _, _, [] => false
  | done, failed, rua :: rest =>
    if ruaHash sha256 rua.key ∈ done then cutAfterFailure r done failed rest
    else if r.deadlineAt ≤ (r.answers rua).checkedAt then failed
    else if r.suppresses rua then cutAfterFailure r (done ++ [ruaHash sha256 rua.key]) failed rest
    else
      match (r.answers rua).slot with
      | .dailyCap => failed
      | .destinationCap => cutAfterFailure r done failed rest
      | .reserved =>
        if (r.answers rua).outcome.isFailed then cutAfterFailure r done true rest
        else cutAfterFailure r (done ++ [ruaHash sha256 rua.key]) failed rest

/-- The run meets what cuts it short, after a failed delivery, at some address it comes to. -/
def ReportRun.losesFailure (r : ReportRun toLowerCase decodeURIComponent parseUrl ρ) (row : Report) :
    Bool :=
  match r.lookup with
  | .record ruas =>
    !decide r.empty && decide (r.bodyLength ≤ MAX_REPORT_BYTES) &&
      cutAfterFailure sha256 r (Loop.start row.deliveredOf).done false ruas
  | _ => false

/-- No delivery of a run fails before the run is cut short. -/
def CountsFailures (s : Tracked toLowerCase decodeURIComponent parseUrl ρ) :
    Event toLowerCase decodeURIComponent parseUrl ρ → Prop
  | .run r => ∀ row ∈ s.report, row.due r.claimedAt → r.losesFailure sha256 row = false
  | .deferUnsent _ _ => True

instance CountsFailures.decidable (s : Tracked toLowerCase decodeURIComponent parseUrl ρ) :
    ∀ e, Decidable (CountsFailures sha256 s e)
  | .run r =>
    decidable_of_iff (∀ row ∈ s.report.toList, row.due r.claimedAt → r.losesFailure sha256 row = false)
      (by simp only [Option.mem_toList]; rfl)
  | .deferUnsent _ _ => isTrue trivial

/-! ## What holds of a report -/

/-- The run had a reason to delete the report. -/
def Tracked.Justified (s : Tracked toLowerCase decodeURIComponent parseUrl ρ)
    (r : ReportRun toLowerCase decodeURIComponent parseUrl ρ) : Prop :=
  r.lookup = .none ∨ r.empty ∨ MAX_REPORT_BYTES < r.bodyLength ∨
    (∃ ruas, r.lookup = .record ruas ∧ ∀ rua ∈ ruas,
      ∃ e ∈ s.handled, e.failed = false ∧ ruaHash sha256 e.key = ruaHash sha256 rua.key) ∨
    s.failedRuns = MAX_SEND_ATTEMPTS

/-- How often a delivery to the address has failed. -/
def failures (key : Text) (handled : List Handled) : ℕ :=
  handled.countP fun e => e.failed && decide (e.key = key)

/-- At a failed delivery's address nothing is done before the backoff of its attempt is over. -/
def Spaced (e e' : Handled) : Prop :=
  e.failed = true → e'.key = e.key →
    ∃ minutes, backoff? e.attempt = some minutes ∧ e.finishedAt + minutes * minuteMs ≤ e'.startedAt

/-- **A report is delivered at most once and tried a bounded number of times.** -/
structure BoundedDelivery (s : Tracked toLowerCase decodeURIComponent parseUrl ρ) : Prop where
  once : ((s.handled.filter Handled.sent).map fun e => ruaHash sha256 e.key).Nodup
  bounded : ∀ key, failures key s.handled ≤ MAX_SEND_ATTEMPTS
  spaced : s.handled.Pairwise Spaced
  deleted : s.report = none → ∃ r, s.deletedBy = some r ∧ s.Justified sha256 r

/-- The addresses that were delivered, suppressed or skipped, by their hashes. -/
def settled (handled : List Handled) : List Text :=
  (handled.filter fun e => !e.failed).map fun e => ruaHash sha256 e.key

theorem settled_append (es es' : List Handled) :
    settled sha256 (es ++ es') = settled sha256 es ++ settled sha256 es' := by
  unfold settled
  rw [List.filter_append, List.map_append]

/-! ## The loop -/

section Loop

variable (r : ReportRun toLowerCase decodeURIComponent parseUrl ρ) (attempt : ℕ)

/-- What the loop's body does to the loop, and to the chance that a failure gets lost. -/
theorem visit_spec {l : Loop} {rua : Rua} (hcut : l.cut = none) :
    (ruaHash sha256 rua.key ∈ l.done ∧ visit sha256 r attempt l rua = l ∧
      ∀ failed rest, cutAfterFailure sha256 r l.done failed (rua :: rest) =
        cutAfterFailure sha256 r l.done failed rest) ∨
    (∃ c, visit sha256 r attempt l rua = { l with cut := some c } ∧
      ∀ failed rest, cutAfterFailure sha256 r l.done failed (rua :: rest) = failed) ∨
    (visit sha256 r attempt l rua = { l with waiting := l.waiting + 1 } ∧
      ∀ failed rest, cutAfterFailure sha256 r l.done failed (rua :: rest) =
        cutAfterFailure sha256 r l.done failed rest) ∨
    (∃ fate, ruaHash sha256 rua.key ∉ l.done ∧
      visit sha256 r attempt l rua = l.handle sha256
        ⟨rua.key, attempt, (r.answers rua).checkedAt, (r.answers rua).finishedAt, fate⟩ ∧
      ∀ failed rest, cutAfterFailure sha256 r l.done failed (rua :: rest) =
        if (Handled.mk rua.key attempt (r.answers rua).checkedAt (r.answers rua).finishedAt
          fate).failed then cutAfterFailure sha256 r l.done true rest
        else cutAfterFailure sha256 r (l.done ++ [ruaHash sha256 rua.key]) failed rest) := by
  unfold visit
  simp only [hcut, Option.isSome_none, Bool.false_eq_true, if_false, cutAfterFailure]
  by_cases hdone : ruaHash sha256 rua.key ∈ l.done
  · exact .inl ⟨hdone, if_pos hdone, fun _ _ => if_pos hdone⟩
  · simp only [if_neg hdone]
    by_cases hlate : r.deadlineAt ≤ (r.answers rua).checkedAt
    · simp only [if_pos hlate]
      exact .inr (.inl ⟨.released, rfl, fun _ _ => trivial⟩)
    · simp only [if_neg hlate]
      by_cases hsup : r.suppresses rua = true
      · simp only [if_pos hsup]
        exact .inr (.inr (.inr ⟨.suppressed, hdone, rfl, fun _ _ => rfl⟩))
      · simp only [if_neg hsup]
        cases hslot : (r.answers rua).slot with
        | dailyCap => exact .inr (.inl ⟨.capped, rfl, fun _ _ => rfl⟩)
        | destinationCap => exact .inr (.inr (.inl ⟨rfl, fun _ _ => rfl⟩))
        | reserved =>
          exact .inr (.inr (.inr ⟨.tried (r.answers rua).outcome, hdone, rfl, fun _ _ => rfl⟩))

/-- The loop over `ruas`, from `l` to `l'`, dealt with the addresses of `new`. -/
structure Visited (start : Time) (ruas : List Rua) (l l' : Loop) (new : List Handled) : Prop where
  handled : l'.handled = l.handled ++ new
  keys : (new.map Handled.key).Sublist (ruas.map Rua.key)
  done : l'.done = l.done ++ settled sha256 new
  nodup : l.done.Nodup → l'.done.Nodup
  during : ∀ e ∈ new, start ≤ e.startedAt ∧ e.finishedAt ≤ r.endedAt ∧ e.attempt = attempt
  failures : l'.failures = l.failures + new.countP Handled.failed
  through : l'.cut = none → l'.failures = 0 → l'.waiting = 0 →
    ∀ rua ∈ ruas, ruaHash sha256 rua.key ∈ l'.done
  lost : l'.cut ≠ none → 0 < l'.failures →
    cutAfterFailure sha256 r l.done (decide (0 < l.failures)) ruas = true

variable {r attempt}

/-- A loop that is cut short leaves the other addresses. -/
theorem foldl_visit_of_cut {l : Loop} (hcut : l.cut ≠ none) (ruas : List Rua) :
    ruas.foldl (visit sha256 r attempt) l = l := by
  induction ruas with
  | nil => rfl
  | cons rua ruas ih =>
    have hstep : visit sha256 r attempt l rua = l := by
      unfold visit
      rw [if_pos (Option.isSome_iff_ne_none.mpr hcut)]
    rw [List.foldl_cons, hstep, ih]

theorem settled_singleton {e : Handled} (h : e.failed = false) :
    settled sha256 [e] = [ruaHash sha256 e.key] := by
  simp [settled, h]

/-- The loop grows its counts only. -/
theorem le_foldl_visit (l : Loop) (ruas : List Rua) :
    l.failures ≤ (ruas.foldl (visit sha256 r attempt) l).failures ∧
      l.waiting ≤ (ruas.foldl (visit sha256 r attempt) l).waiting ∧
      l.done ⊆ (ruas.foldl (visit sha256 r attempt) l).done := by
  induction ruas generalizing l with
  | nil => exact ⟨le_rfl, le_rfl, List.Subset.refl _⟩
  | cons rua ruas ih =>
    rw [List.foldl_cons]
    have hstep : l.failures ≤ (visit sha256 r attempt l rua).failures ∧
        l.waiting ≤ (visit sha256 r attempt l rua).waiting ∧
        l.done ⊆ (visit sha256 r attempt l rua).done := by
      cases hcut : l.cut with
      | some c =>
        have hsame := @foldl_visit_of_cut _ _ _ _ sha256 r attempt l (by rw [hcut]; exact Option.some_ne_none c) [rua]
        rw [show visit sha256 r attempt l rua = l from hsame]
        exact ⟨le_rfl, le_rfl, List.Subset.refl _⟩
      | none =>
        obtain ⟨_, h, _⟩ | ⟨c, h, _⟩ | ⟨h, _⟩ | ⟨fate, _, h, _⟩ :=
          @visit_spec _ _ _ _ sha256 r attempt _ rua hcut
        · rw [h]
          exact ⟨le_rfl, le_rfl, List.Subset.refl _⟩
        · rw [h]
          exact ⟨le_rfl, le_rfl, List.Subset.refl _⟩
        · rw [h]
          exact ⟨le_rfl, Nat.le_succ _, List.Subset.refl _⟩
        · rw [h]
          unfold Loop.handle
          split_ifs
          · exact ⟨Nat.le_succ _, le_rfl, List.Subset.refl _⟩
          · exact ⟨le_rfl, le_rfl, List.subset_append_left _ _⟩
    obtain ⟨h₁, h₂, h₃⟩ := ih (visit sha256 r attempt l rua)
    exact ⟨hstep.1.trans h₁, hstep.2.1.trans h₂, List.Subset.trans hstep.2.2 h₃⟩

theorem Forward.le {answers : Rua → Answer} {stop start : Time} {ruas : List Rua}
    (h : Forward answers stop start ruas) : start ≤ stop := by
  induction ruas generalizing start with
  | nil => exact h
  | cons rua ruas ih => exact h.1.trans (h.2.1.trans (ih h.2.2))

/-- **The loop.** By induction on the addresses that are still to come. -/
theorem exists_visited {start : Time} {ruas : List Rua}
    (hforward : Forward r.answers r.endedAt start ruas) {l : Loop} (hcut : l.cut = none) :
    ∃ new, Visited sha256 r attempt start ruas l (ruas.foldl (visit sha256 r attempt) l) new := by
  induction ruas generalizing l start with
  | nil =>
    exact ⟨[], {
      handled := (List.append_nil _).symm
      keys := List.Sublist.slnil
      done := (List.append_nil _).symm
      nodup := fun h => h
      during := fun e he => absurd he List.not_mem_nil
      failures := rfl
      through := fun _ _ _ rua hrua => absurd hrua List.not_mem_nil
      lost := fun h => absurd hcut h }⟩
  | cons rua ruas ih =>
    rw [List.foldl_cons]
    have hafter := hforward.2.2
    have hlate : start ≤ (r.answers rua).finishedAt := hforward.1.trans hforward.2.1
    obtain ⟨hdone, h, hlost⟩ | ⟨c, h, hlost⟩ | ⟨h, hlost⟩ | ⟨fate, hdone, h, hlost⟩ :=
      @visit_spec _ _ _ _ sha256 r attempt _ rua hcut
    -- the address is settled already
    · rw [h]
      obtain ⟨new, hv⟩ := ih hafter hcut
      refine ⟨new, { hv with
        keys := hv.keys.cons _
        during := fun e he => ⟨hlate.trans (hv.during e he).1, (hv.during e he).2⟩
        through := fun h₁ h₂ h₃ => List.forall_mem_cons.mpr ⟨?_, hv.through h₁ h₂ h₃⟩
        lost := fun h₁ h₂ => (hlost _ _).trans (hv.lost h₁ h₂) }⟩
      exact (le_foldl_visit sha256 l ruas).2.2 hdone
    -- the loop is cut short here
    · have hcut' : ({ l with cut := some c } : Loop).cut ≠ none := Option.some_ne_none c
      rw [h, foldl_visit_of_cut sha256 hcut']
      exact ⟨[], {
        handled := (List.append_nil _).symm
        keys := List.nil_sublist _
        done := (List.append_nil _).symm
        nodup := fun h => h
        during := fun e he => absurd he List.not_mem_nil
        failures := rfl
        through := fun h => absurd h hcut'
        lost := fun _ h₂ => (hlost _ _).trans (decide_eq_true h₂) }⟩
    -- the address waits for its destination's cap
    · rw [h]
      obtain ⟨new, hv⟩ := ih hafter (l := { l with waiting := l.waiting + 1 }) hcut
      refine ⟨new, { hv with
        keys := hv.keys.cons _
        during := fun e he => ⟨hlate.trans (hv.during e he).1, (hv.during e he).2⟩
        through := fun _ _ h₃ => ?_
        lost := fun h₁ h₂ => (hlost _ _).trans (hv.lost h₁ h₂) }⟩
      have hle := (@le_foldl_visit _ _ _ _ sha256 r attempt
        { l with waiting := l.waiting + 1 } ruas).2.1
      rw [h₃] at hle
      exact absurd hle (Nat.not_succ_le_zero _)
    -- the address is dealt with
    · rw [h]
      generalize he : Handled.mk rua.key attempt (r.answers rua).checkedAt
        (r.answers rua).finishedAt fate = e at hlost
      have hkey : e.key = rua.key := by rw [← he]
      have hduring : start ≤ e.startedAt ∧ e.finishedAt ≤ r.endedAt ∧ e.attempt = attempt := by
        rw [← he]
        exact ⟨hforward.1, hafter.le, rfl⟩
      obtain ⟨new, hv⟩ := ih hafter (l := l.handle sha256 e) (by
        unfold Loop.handle
        split_ifs <;> exact hcut)
      have hle := @le_foldl_visit _ _ _ _ sha256 r attempt (l.handle sha256 e) ruas
      have hkeys : ((e :: new).map Handled.key).Sublist ((rua :: ruas).map Rua.key) := by
        rw [List.map_cons, List.map_cons, hkey]
        exact hv.keys.cons_cons _
      have hmem : ∀ e' ∈ e :: new, start ≤ e'.startedAt ∧ e'.finishedAt ≤ r.endedAt ∧
          e'.attempt = attempt :=
        List.forall_mem_cons.mpr ⟨hduring, fun e' he' =>
          ⟨hlate.trans (hv.during e' he').1, (hv.during e' he').2⟩⟩
      have hhandled : (l.handle sha256 e).handled = l.handled ++ [e] := by
        unfold Loop.handle
        split_ifs <;> rfl
      cases hfailed : e.failed with
      | true =>
        have hl : l.handle sha256 e =
            { l with failures := l.failures + 1, handled := l.handled ++ [e] } := if_pos hfailed
        refine ⟨e :: new, {
          handled := by rw [hv.handled, hhandled, List.append_assoc]; rfl
          keys := hkeys
          done := ?_
          nodup := fun hnodup => hv.nodup (by rw [hl]; exact hnodup)
          during := hmem
          failures := ?_
          through := fun _ h₂ _ => ?_
          lost := fun h₁ h₂ => ?_ }⟩
        · rw [hv.done, hl]
          unfold settled
          rw [List.filter_cons_of_neg (by rw [hfailed]; decide)]
        · rw [hv.failures, hl, List.countP_cons_of_pos hfailed, Nat.add_assoc, Nat.add_comm 1]
        · have hpos := hle.1
          rw [h₂, hl] at hpos
          exact absurd hpos (Nat.not_succ_le_zero _)
        · have hrest := hv.lost h₁ h₂
          rw [hl, decide_eq_true (Nat.succ_pos _)] at hrest
          rw [hlost, if_pos hfailed]
          exact hrest
      | false =>
        have hneg : ¬ e.failed = true := by rw [hfailed]; decide
        have hl : l.handle sha256 e =
            { l with done := l.done ++ [ruaHash sha256 e.key], handled := l.handled ++ [e] } :=
          if_neg hneg
        rw [← hkey] at hdone
        refine ⟨e :: new, {
          handled := by rw [hv.handled, hhandled, List.append_assoc]; rfl
          keys := hkeys
          done := ?_
          nodup := fun hnodup => hv.nodup ?_
          during := hmem
          failures := ?_
          through := fun h₁ h₂ h₃ => List.forall_mem_cons.mpr ⟨?_, hv.through h₁ h₂ h₃⟩
          lost := fun h₁ h₂ => ?_ }⟩
        · rw [hv.done, hl, List.append_assoc, ← settled_singleton sha256 hfailed,
            ← settled_append]
          rfl
        · rw [hl, ← List.concat_eq_append]
          exact List.Nodup.concat hdone hnodup
        · rw [hv.failures, hl, List.countP_cons_of_neg hneg]
        · refine hle.2.2 ?_
          rw [hl, ← hkey]
          exact List.mem_append_right _ (List.mem_singleton.mpr rfl)
        · have hrest := hv.lost h₁ h₂
          rw [hl] at hrest
          rw [hlost, if_neg hneg, ← hkey]
          exact hrest

end Loop

/-! ## A run -/

section Deliver

variable (r : ReportRun toLowerCase decodeURIComponent parseUrl ρ) (row : Report)

/-- What a run did to the loop's variables, and what it says of the row. -/
structure Delivered (new : List Handled) : Prop where
  handled : (deliverReport sha256 r row).1.handled = new
  keys : (new.map Handled.key).Nodup
  done : (deliverReport sha256 r row).1.done = row.deliveredOf ++ settled sha256 new
  nodup : (row.deliveredOf ++ settled sha256 new).Nodup
  during : ∀ e ∈ new, r.claimedAt ≤ e.startedAt ∧ e.finishedAt ≤ r.endedAt ∧
    e.attempt = row.attempts
  failures : (deliverReport sha256 r row).1.failures = new.countP Handled.failed

/-- The run's delivery or its lookup failed. -/
def failedRun : Bool := r.failed (deliverReport sha256 r row).1

variable {r row}

theorem claimedAt_le_endedAt : r.claimedAt ≤ r.endedAt := r.forward.le

theorem exists_delivered (hnodup : row.deliveredOf.Nodup) : ∃ new, Delivered sha256 r row new := by
  have hnone : deliverReport sha256 r row = (Loop.start row.deliveredOf, (deliverReport sha256 r row).2) →
      Delivered sha256 r row [] := by
    intro h
    refine ⟨by rw [h]; rfl, List.nodup_nil, ?_, ?_, fun e he => absurd he List.not_mem_nil, by rw [h]; rfl⟩
    · rw [h]
      show (Loop.start row.deliveredOf).done = _ ++ []
      rw [dedup_start hnodup, List.append_nil]
    · rw [show settled sha256 [] = [] from rfl, List.append_nil]
      exact hnodup
  cases hlookup : r.lookup with
  | none => exact ⟨[], hnone (by simp only [deliverReport, hlookup])⟩
  | error code => exact ⟨[], hnone (by simp only [deliverReport, hlookup])⟩
  | record ruas =>
    by_cases hempty : r.empty
    · exact ⟨[], hnone (by simp only [deliverReport, hlookup, if_pos hempty])⟩
    by_cases hsize : MAX_REPORT_BYTES < r.bodyLength
    · exact ⟨[], hnone (by simp only [deliverReport, hlookup, if_neg hempty, if_pos hsize])⟩
    have hl : (deliverReport sha256 r row).1 = visits sha256 r row ruas := by
      simp only [deliverReport, hlookup, if_neg hempty, if_neg hsize]
    have hforward := r.forward
    rw [show lookupTlsRptRecord toLowerCase decodeURIComponent parseUrl r.txt = .record ruas from
      hlookup] at hforward
    obtain ⟨new, hv⟩ := @exists_visited _ _ _ _ sha256 _ row.attempts _ _ hforward
      (Loop.start row.deliveredOf) rfl
    have hstart := dedup_start hnodup
    refine ⟨new, by rw [hl]; exact hv.handled, (nodup_lookup hlookup).sublist hv.keys, ?_, ?_,
      hv.during, ?_⟩
    · rw [hl, ← hstart]
      exact hv.done
    · rw [← hstart, ← hv.done]
      exact hv.nodup (by rw [hstart]; exact hnodup)
    · rw [hl]
      exact hv.failures.trans (Nat.zero_add _)

/-- What a run that keeps its failures leaves behind. -/
inductive Leaves (r : ReportRun toLowerCase decodeURIComponent parseUrl ρ) (row : Report) (l : Loop) :
    Ending → Prop
  | retry (backoff : ℕ) (h : backoff? row.attempts = some backoff)
      (hleft : row.attempts < MAX_SEND_ATTEMPTS) (hfailed : r.failed l = true) :
      Leaves r row l (.rescheduled (r.endedAt + backoff * minuteMs) l.done)
  | tomorrow (hfailed : r.failed l = false) : Leaves r row l (.deferred l.done)
  | again (hfailed : r.failed l = false) : Leaves r row l (.released l.done)
  | usedUp (hleft : MAX_SEND_ATTEMPTS ≤ row.attempts) (hfailed : r.failed l = true) :
      Leaves r row l .removed
  | unwanted (h : r.lookup = .none ∨ r.empty ∨ MAX_REPORT_BYTES < r.bodyLength) : Leaves r row l .removed
  | through (ruas : List Rua) (h : r.lookup = .record ruas)
      (hdone : ∀ rua ∈ ruas, ruaHash sha256 rua.key ∈ l.done) : Leaves r row l .removed

theorem leaves_retryOrDrop {l : Loop} (hattempts : 0 < row.attempts) (hfailed : r.failed l = true) :
    Leaves sha256 r row l (retryOrDrop row l.done r.endedAt) := by
  unfold retryOrDrop
  cases hbackoff : backoff? row.attempts with
  | none => exact .usedUp ((backoff?_eq_none hbackoff).resolve_left hattempts.ne') hfailed
  | some backoff =>
    dsimp only
    split_ifs with hleft
    · exact .usedUp hleft hfailed
    · exact .retry backoff hbackoff (not_le.mp hleft) hfailed

theorem failed_of_record {ruas : List Rua} {l : Loop} (h : r.lookup = .record ruas) :
    r.failed l = decide (0 < l.failures) := by
  unfold ReportRun.failed
  rw [h, Bool.or_false]

/-- **The endings of a run.** -/
theorem leaves_deliverReport (hattempts : 0 < row.attempts) (hnodup : row.deliveredOf.Nodup)
    (hlost : r.losesFailure sha256 row = false) :
    Leaves sha256 r row (deliverReport sha256 r row).1 (deliverReport sha256 r row).2 := by
  unfold deliverReport
  cases hlookup : r.lookup with
  | none => exact .unwanted (.inl hlookup)
  | error code =>
    have hdone := dedup_start hnodup
    have hfailed : r.failed (Loop.start row.deliveredOf) = true := by
      unfold ReportRun.failed
      rw [hlookup, Bool.or_true]
    have h := leaves_retryOrDrop sha256 hattempts hfailed
    rw [hdone] at h
    exact h
  | record ruas =>
    dsimp only
    by_cases hempty : r.empty
    · rw [if_pos hempty]
      exact .unwanted (.inr (.inl hempty))
    by_cases hsize : MAX_REPORT_BYTES < r.bodyLength
    · rw [if_neg hempty, if_pos hsize]
      exact .unwanted (.inr (.inr hsize))
    rw [if_neg hempty, if_neg hsize]
    have hforward := r.forward
    rw [show lookupTlsRptRecord toLowerCase decodeURIComponent parseUrl r.txt = .record ruas from
      hlookup] at hforward
    obtain ⟨new, hv⟩ := @exists_visited _ _ _ _ sha256 _ row.attempts _ _ hforward
      (Loop.start row.deliveredOf) rfl
    change Visited sha256 r row.attempts r.claimedAt ruas (Loop.start row.deliveredOf)
      (visits sha256 r row ruas) new at hv
    dsimp only
    generalize hl : visits sha256 r row ruas = l at hv
    -- a cut loop has seen no failure
    have hkept : l.cut ≠ none → r.failed l = false := by
      intro hcut
      rw [failed_of_record hlookup, decide_eq_false_iff_not]
      intro hpos
      have hlose : r.losesFailure sha256 row = true := by
        unfold ReportRun.losesFailure
        rw [hlookup]
        dsimp only
        rw [decide_eq_false hempty, decide_eq_true (not_lt.mp hsize), Bool.not_false, Bool.true_and,
          Bool.true_and]
        exact hv.lost hcut hpos
      rw [hlose] at hlost
      cases hlost
    unfold endingOf
    cases hcut : l.cut with
    | some c =>
      have hfailed := hkept (by rw [hcut]; exact Option.some_ne_none c)
      cases c with
      | released => exact .again hfailed
      | capped => exact .tomorrow hfailed
    | none =>
      dsimp only
      have hrecord := failed_of_record (l := l) hlookup
      split_ifs with hfailures hwaiting
      · exact leaves_retryOrDrop sha256 hattempts (hrecord.trans (decide_eq_true hfailures))
      · exact .tomorrow (hrecord.trans (decide_eq_false hfailures))
      · exact .through ruas hlookup (hv.through hcut (Nat.eq_zero_of_not_pos hfailures)
          (Nat.eq_zero_of_not_pos hwaiting))

end Deliver

/-! ## The invariant -/

/-- What holds of a report while its row is there. -/
structure Alive (s : Tracked toLowerCase decodeURIComponent parseUrl ρ) (row : Report) : Prop where
  attempts : row.attempts = s.failedRuns
  left : row.attempts < MAX_SEND_ATTEMPTS
  fails : ∀ key, failures key s.handled ≤ row.attempts
  delivered : row.deliveredOf = settled sha256 s.handled
  waits : ∀ e ∈ s.handled, e.failed = true →
    ∃ minutes, backoff? e.attempt = some minutes ∧ e.finishedAt + minutes * minuteMs ≤ row.nextAttemptAt

/-- The invariant of the runs that keep their failures. -/
structure ReportInv (s : Tracked toLowerCase decodeURIComponent parseUrl ρ) : Prop where
  alive : ∀ row ∈ s.report, Alive sha256 s row
  settledOnce : (settled sha256 s.handled).Nodup
  bounded : ∀ key, failures key s.handled ≤ MAX_SEND_ATTEMPTS
  spaced : s.handled.Pairwise Spaced
  deleted : s.report = none → ∃ r, s.deletedBy = some r ∧ s.Justified sha256 r

variable {sha256} {s : Tracked toLowerCase decodeURIComponent parseUrl ρ} {row : Report}
  {r : ReportRun toLowerCase decodeURIComponent parseUrl ρ}

theorem failures_append (key : Text) (es es' : List Handled) :
    failures key (es ++ es') = failures key es + failures key es' := List.countP_append

/-- A run comes to each address once. -/
theorem failures_le_one {es : List Handled} (h : (es.map Handled.key).Nodup) (key : Text) :
    failures key es ≤ 1 := by
  have hcount : es.countP (fun e => decide (e.key = key)) ≤ 1 := by
    have hle := List.nodup_iff_count_le_one.mp h key
    rw [List.count, List.countP_map] at hle
    exact le_trans (List.countP_mono_left fun e _ he => by simpa using he) hle
  refine le_trans (List.countP_mono_left fun e _ he => ?_) hcount
  exact (Bool.and_eq_true_iff.mp he).2

theorem failures_le_countP (es : List Handled) (key : Text) :
    failures key es ≤ es.countP Handled.failed :=
  List.countP_mono_left fun _ _ he => (Bool.and_eq_true_iff.mp he).1

/-- What the run of `new` adds to a report whose row was due for it. -/
theorem spaced_append (h : ReportInv sha256 s) (hrow : s.report = some row) (hdue : row.due r.claimedAt)
    {new : List Handled} (hnew : Delivered sha256 r (row.claim r.claimedAt) new) :
    (s.handled ++ new).Pairwise Spaced := by
  refine List.pairwise_append.mpr ⟨h.spaced, ?_, fun e he e' he' hfailed _ => ?_⟩
  · refine (List.pairwise_map.mp hnew.keys).imp fun hne _ hkey => absurd hkey.symm hne
  · obtain ⟨minutes, hbackoff, hle⟩ := (h.alive row hrow).waits e he hfailed
    exact ⟨minutes, hbackoff, (hle.trans hdue.1).trans (hnew.during e' he').1⟩

/-- A row that is written after a run has the run's addresses in its delivered set. -/
theorem deliveredOf_written (h : ReportInv sha256 s) (hrow : s.report = some row) {new : List Handled}
    (row' : Report) :
    (row'.setDelivered (row.deliveredOf ++ settled sha256 new)).deliveredOf =
      settled sha256 (s.handled ++ new) := by
  rw [settled_append, (h.alive row hrow).delivered]
  refine deliveredOf_setDelivered sha256 row' fun hash hmem => ?_
  rw [← settled_append] at hmem
  obtain ⟨e, _, rfl⟩ := List.mem_map.mp hmem
  exact ⟨e.key, rfl⟩

/-- What waits for its backoff still does after a run without a failure. -/
theorem waits_of_no_failure (h : ReportInv sha256 s) (hrow : s.report = some row)
    (hdue : row.due r.claimedAt) {new : List Handled} (hnone : new.countP Handled.failed = 0)
    {next : Time} (hnext : r.endedAt ≤ next) :
    ∀ e ∈ s.handled ++ new, e.failed = true →
      ∃ minutes, backoff? e.attempt = some minutes ∧ e.finishedAt + minutes * minuteMs ≤ next := by
  intro e he hfailed
  rcases List.mem_append.mp he with he | he
  · obtain ⟨minutes, hbackoff, hle⟩ := (h.alive row hrow).waits e he hfailed
    exact ⟨minutes, hbackoff, hle.trans (hdue.1.trans (claimedAt_le_endedAt.trans hnext))⟩
  · exact absurd hfailed (List.countP_eq_zero.mp hnone e he)

theorem failures_of_not_failed {l : Loop} (h : r.failed l = false) : l.failures = 0 := by
  unfold ReportRun.failed at h
  exact Nat.eq_zero_of_not_pos (of_decide_eq_false (Bool.or_eq_false_iff.mp h).1)

/-- The report after a run that did `new` and ended so. -/
def Tracked.written (s : Tracked toLowerCase decodeURIComponent parseUrl ρ)
    (r : ReportRun toLowerCase decodeURIComponent parseUrl ρ) (row : Report) (new : List Handled)
    (l : Loop) (ending : Ending) : Tracked toLowerCase decodeURIComponent parseUrl ρ where
  report := ending.write row r.endedAt r.jitter
  handled := s.handled ++ new
  failedRuns := s.failedRuns + if r.failed l then 1 else 0
  deletedBy := if (ending.write row r.endedAt r.jitter).isSome then none else some r

section Written

variable {new : List Handled} {l : Loop} {ending : Ending}

/-- A row that outlives a run. -/
theorem alive_written (h : ReportInv sha256 s) (hrow : s.report = some row) (hdue : row.due r.claimedAt)
    (hnew : Delivered sha256 r (row.claim r.claimedAt) new)
    (hdone : l.done = row.deliveredOf ++ settled sha256 new)
    (hzero : r.failed l = false → new.countP Handled.failed = 0)
    (hleaves : Leaves sha256 r (row.claim r.claimedAt) l ending) {row' : Report}
    (hrow' : ending.write (row.claim r.claimedAt) r.endedAt r.jitter = some row') :
    Alive sha256 (s.written r (row.claim r.claimedAt) new l ending) row' := by
  have hal := h.alive row hrow
  -- a run that keeps its attempt for later
  have hback : ∀ next, r.endedAt ≤ next → r.failed l = false →
      Alive sha256 (s.written r (row.claim r.claimedAt) new l ending)
        { (row.claim r.claimedAt).setDelivered l.done with
          nextAttemptAt := next, attempts := (row.claim r.claimedAt).attempts - 1 } := by
    intro next hnext hfailed
    have hnone := hzero hfailed
    exact {
      attempts := by
        show row.attempts = s.failedRuns + if r.failed l then 1 else 0
        rw [hal.attempts, hfailed]
        rfl
      left := hal.left
      fails := fun key => by
        have hle := (failures_le_countP new key).trans_eq hnone
        show failures key (s.handled ++ new) ≤ row.attempts
        rw [failures_append, Nat.le_zero.mp hle]
        exact hal.fails key
      delivered := by
        rw [hdone]
        exact deliveredOf_written h hrow (row.claim r.claimedAt)
      waits := waits_of_no_failure h hrow hdue hnone hnext }
  cases hleaves with
  | retry backoff hbackoff hleft hfailed =>
    obtain rfl := Option.some.inj hrow'
    refine {
      attempts := ?_
      left := hleft
      fails := fun key => ?_
      delivered := ?_
      waits := fun e he hf => ?_ }
    · show row.attempts + 1 = s.failedRuns + if r.failed l then 1 else 0
      rw [hal.attempts, hfailed]
      rfl
    · exact (failures_append key _ _).trans_le
        (Nat.add_le_add (hal.fails key) (failures_le_one hnew.keys key))
    · rw [hdone]
      exact deliveredOf_written h hrow (row.claim r.claimedAt)
    · rcases List.mem_append.mp he with he | he
      · obtain ⟨minutes, hminutes, hle⟩ := hal.waits e he hf
        exact ⟨minutes, hminutes, hle.trans (hdue.1.trans (claimedAt_le_endedAt.trans
          (Nat.le_add_right _ _)))⟩
      · obtain ⟨_, hfinished, hattempt⟩ := hnew.during e he
        refine ⟨backoff, ?_, Nat.add_le_add_right hfinished _⟩
        rw [hattempt]
        exact hbackoff
  | tomorrow hfailed =>
    obtain rfl := Option.some.inj hrow'
    exact hback _ (le_tomorrowWithJitter _ _) hfailed
  | again hfailed =>
    obtain rfl := Option.some.inj hrow'
    exact hback _ le_rfl hfailed
  | usedUp => cases hrow'
  | unwanted => cases hrow'
  | through => cases hrow'

/-- A run that deletes the row has a reason. -/
theorem justified_written (h : ReportInv sha256 s) (hrow : s.report = some row)
    (hdone : l.done = row.deliveredOf ++ settled sha256 new)
    (hleaves : Leaves sha256 r (row.claim r.claimedAt) l ending)
    (hgone : ending.write (row.claim r.claimedAt) r.endedAt r.jitter = none) :
    (s.written r (row.claim r.claimedAt) new l ending).Justified sha256 r := by
  have hal := h.alive row hrow
  cases hleaves with
  | retry => cases hgone
  | tomorrow => cases hgone
  | again => cases hgone
  | usedUp hleft hfailed =>
    refine .inr (.inr (.inr (.inr ?_)))
    show s.failedRuns + (if r.failed l then 1 else 0) = MAX_SEND_ATTEMPTS
    rw [hfailed, ← hal.attempts]
    exact Nat.le_antisymm hal.left hleft
  | unwanted hwhy =>
    rcases hwhy with hnone | hempty | hsize
    · exact .inl hnone
    · exact .inr (.inl hempty)
    · exact .inr (.inr (.inl hsize))
  | through ruas hlookup hthrough =>
    refine .inr (.inr (.inr (.inl ⟨ruas, hlookup, fun rua hrua => ?_⟩)))
    have hmem := hthrough rua hrua
    rw [hdone, hal.delivered, ← settled_append] at hmem
    obtain ⟨e, he, hhash⟩ := List.mem_map.mp hmem
    obtain ⟨he, hfailed⟩ := List.mem_filter.mp he
    exact ⟨e, he, by simpa using hfailed, hhash⟩

end Written

/-- **A run.** -/
theorem inv_deliver (h : ReportInv sha256 s) (hrow : s.report = some row) (hdue : row.due r.claimedAt)
    (hlost : r.losesFailure sha256 row = false) :
    ReportInv sha256 (s.deliver sha256 r (row.claim r.claimedAt)) := by
  have hal := h.alive row hrow
  have hnodup : (row.claim r.claimedAt).deliveredOf.Nodup := by
    show row.deliveredOf.Nodup
    rw [hal.delivered]
    exact h.settledOnce
  obtain ⟨new, hnew⟩ := exists_delivered sha256 hnodup
  have hleaves := @leaves_deliverReport _ _ _ _ sha256 _ (row.claim r.claimedAt) (Nat.succ_pos _)
    hnodup hlost
  have hdone : (deliverReport sha256 r (row.claim r.claimedAt)).1.done =
      row.deliveredOf ++ settled sha256 new := hnew.done
  have hzero : r.failed (deliverReport sha256 r (row.claim r.claimedAt)).1 = false →
      new.countP Handled.failed = 0 := fun hfailed =>
    hnew.failures.symm.trans (failures_of_not_failed hfailed)
  have hdeliver : s.deliver sha256 r (row.claim r.claimedAt) =
      s.written r (row.claim r.claimedAt) new (deliverReport sha256 r (row.claim r.claimedAt)).1
        (deliverReport sha256 r (row.claim r.claimedAt)).2 := by
    unfold Tracked.written
    rw [← hnew.handled]
    rfl
  rw [hdeliver]
  revert hleaves hdone hzero
  generalize (deliverReport sha256 r (row.claim r.claimedAt)).1 = l
  generalize (deliverReport sha256 r (row.claim r.claimedAt)).2 = ending
  intro hleaves hdone hzero
  have hsettled : (settled sha256 (s.handled ++ new)).Nodup := by
    rw [settled_append, ← hal.delivered]
    exact hnew.nodup
  have hfails : ∀ key, failures key (s.handled ++ new) ≤ row.attempts + 1 := fun key =>
    (failures_append key _ _).trans_le
      (Nat.add_le_add (hal.fails key) (failures_le_one hnew.keys key))
  refine {
    alive := fun row' hrow' => ?_
    settledOnce := hsettled
    bounded := fun key => (hfails key).trans hal.left
    spaced := spaced_append h hrow hdue hnew
    deleted := fun hgone => ?_ }
  · exact alive_written h hrow hdue hnew hdone hzero hleaves hrow'
  · have hdeleted : (s.written r (row.claim r.claimedAt) new l ending).deletedBy = some r := by
      unfold Tracked.written at hgone ⊢
      dsimp only at hgone ⊢
      rw [hgone]
      rfl
    exact ⟨r, hdeleted, justified_written h hrow hdone hleaves hgone⟩

/-- **One event.** -/
theorem inv_step (h : ReportInv sha256 s) (e : Event toLowerCase decodeURIComponent parseUrl ρ)
    (hcounts : CountsFailures sha256 s e) : ReportInv sha256 (s.step sha256 e) := by
  cases e with
  | run r =>
    unfold Tracked.step
    cases hrow : s.report with
    | none => exact h
    | some row =>
      dsimp only
      split_ifs with hdue
      · exact inv_deliver h hrow hdue (hcounts row hrow hdue)
      · exact h
  | deferUnsent now jitter =>
    refine { h with
      alive := fun row' hrow' => ?_
      deleted := fun hgone => h.deleted (Option.map_eq_none_iff.mp hgone) }
    obtain ⟨row, hrow, rfl⟩ := Option.map_eq_some_iff.mp hrow'
    have hal := h.alive row hrow
    split_ifs with hdefer
    · exact { hal with
        waits := fun e he hfailed => by
          obtain ⟨minutes, hminutes, hle⟩ := hal.waits e he hfailed
          refine ⟨minutes, hminutes, hle.trans (hdefer.2.le.trans ?_)⟩
          exact (Nat.le_add_right _ _).trans (Nat.le_add_right _ _) }
    · exact ⟨hal.attempts, hal.left, hal.fails, hal.delivered, hal.waits⟩

theorem inv_fresh (policyDomain : Text) (day : ℕ) (nextAttemptAt : Time) :
    ReportInv sha256 (Tracked.fresh policyDomain day nextAttemptAt :
      Tracked toLowerCase decodeURIComponent parseUrl ρ) where
  alive := fun row hrow => by
    obtain rfl := Option.some.inj hrow
    exact {
      attempts := rfl
      left := Nat.succ_pos _
      fails := fun _ => le_rfl
      delivered := rfl
      waits := fun e he => absurd he List.not_mem_nil }
  settledOnce := List.nodup_nil
  bounded := fun _ => Nat.zero_le _
  spaced := List.Pairwise.nil
  deleted := fun h => by cases h

theorem ReportInv.boundedDelivery (h : ReportInv sha256 s) : BoundedDelivery sha256 s where
  once := by
    refine h.settledOnce.sublist (List.Sublist.map _ ?_)
    refine List.monotone_filter_right _ fun e he => ?_
    unfold Handled.sent at he
    unfold Handled.failed
    rw [of_decide_eq_true he]
    rfl
  bounded := h.bounded
  spaced := h.spaced
  deleted := h.deleted

/-- **Runs that count their failures.** -/
theorem boundedDelivery_run (policyDomain : Text) (day : ℕ) (nextAttemptAt : Time)
    (events : List (Event toLowerCase decodeURIComponent parseUrl ρ))
    (h : Run.Along (Tracked.step sha256) (CountsFailures sha256)
      (Tracked.fresh policyDomain day nextAttemptAt) events) :
    BoundedDelivery sha256
      (Run.run (Tracked.step sha256) (Tracked.fresh policyDomain day nextAttemptAt) events) :=
  (Run.invariant (ReportInv sha256) (fun _ e hs hC => inv_step hs e hC) (inv_fresh _ _ _) h).boundedDelivery

end Runs

/-! ## Two addresses -/

/-- The domain's record. -/
def twoAddresses : Except Text (List (List Text)) :=
  .ok [["v=TLSRPTv1; rua=mailto:a@example.com,mailto:b@example.com"]]

theorem lookup_twoAddresses : lookupTlsRptRecord Text.asciiLower some (fun _ => none) twoAddresses =
    .record [
      .mailto "mailto:a@example.com" "a@example.com" "mailto:a@example.com" "a@example.com",
      .mailto "mailto:b@example.com" "b@example.com" "mailto:b@example.com" "b@example.com"] := by
  decide +kernel

/-- How long the first address keeps a run. -/
def tookMs (slow : Bool) : ℕ := if slow then 2 * minuteMs else 0

/-- A run with ten minutes that claims the report in its last one. The first address answers at once
or after two minutes; the second takes the report. -/
def lateRun (start : Time) (slow : Bool) (outcome : ReportSendOutcome) :
    ReportRun Text.asciiLower some (fun _ => none) Unit where
  claimedAt := start + 9 * minuteMs
  txt := twoAddresses
  results := [()]
  contactEmail := some "tls@example.org"
  bodyLength := 1
  deadlineAt := start + 10 * minuteMs
  answers := fun rua =>
    if rua.key = "mailto:a@example.com" then
      { checkedAt := start + 9 * minuteMs
        suppressed := false
        slot := .reserved
        outcome := outcome
        finishedAt := start + 9 * minuteMs + tookMs slow }
    else
      { checkedAt := start + 9 * minuteMs + tookMs slow
        suppressed := false
        slot := .reserved
        outcome := .sent
        finishedAt := start + 9 * minuteMs + tookMs slow }
  endedAt := start + 9 * minuteMs + tookMs slow
  jitter := ⟨0, by decide⟩
  forward := by
    rw [lookup_twoAddresses]
    exact ⟨le_rfl, Nat.le_add_right _ _, le_rfl, le_rfl, le_rfl⟩
  leased := Nat.add_le_add_left (by cases slow <;> decide) _

/-- A digest that tells the two addresses apart. -/
def keyDigest (key : Text) (i : Fin 32) : UInt8 := UInt8.ofNat (key.getD i 'a').toNat

theorem boundedDelivery_run_retry :
    BoundedDelivery keyDigest (Run.run (Tracked.step keyDigest)
      (Tracked.fresh "example.com" 20000 (20001 * dayMs))
      [.run (lateRun (20001 * dayMs) false (.failed "ECONNREFUSED")),
        .run (lateRun (20001 * dayMs + 30 * minuteMs) false .sent)]) :=
  boundedDelivery_run "example.com" 20000 (20001 * dayMs) _ (by decide +kernel)

/-- **A failed delivery that does not count.** Seven runs in a row meet a first address that fails, and
are out of time at the second. -/
theorem not_boundedDelivery_released :
    ¬ BoundedDelivery keyDigest (Run.run (Tracked.step keyDigest)
      (Tracked.fresh "example.com" 20000 (20001 * dayMs))
      ((List.range 7).map fun i =>
        .run (lateRun (20001 * dayMs + i * (15 * minuteMs)) true (.failed "ETIMEDOUT")))) := by
  intro h
  have hbounded := h.bounded "mailto:a@example.com"
  revert hbounded
  decide +kernel

end BunMail.TlsRpt
