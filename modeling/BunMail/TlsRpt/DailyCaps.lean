import BunMail.TlsRpt.SendSlots

/-!
# The daily caps

Every delivery that took its slots is counted in both rows of its day until it gives them back.  The
cap is checked on a row that stays locked until the commit.
-/

namespace BunMail.TlsRpt

open Transactions Run

/-! ## The counters -/

namespace Counters

variable {db : Counters} {slot other : Slot} {n : ℕ} {v : Option ℕ}

theorem sent?_set : (db.set slot n).sent? other = if other = slot then some n else db.sent? other := by
  cases slot <;> cases other <;> simp [sent?, set, Table.get?_put]

theorem sent?_write : (write slot v db).sent? other =
    if other = slot then v.orElse fun _ => db.sent? slot else db.sent? other := by
  cases v with
  | none =>
    show db.sent? other = _
    split_ifs with h
    · rw [h]
      rfl
    · rfl
  | some n =>
    show (db.set slot n).sent? other = _
    rw [sent?_set]
    rfl

theorem sent_write : (write slot v db).sent other =
    if other = slot then v.getD (db.sent slot) else db.sent other := by
  unfold sent
  rw [sent?_write]
  split_ifs
  · cases v <;> rfl
  · rfl

/-- The two rows of a delivery. -/
theorem sent_write_write {day : ℕ} {hash : Text} {w : Option ℕ} :
    (write (.day day) w (write (.destination day hash) v db)).sent slot =
      if slot = .day day then w.getD (db.sent slot)
      else if slot = .destination day hash then v.getD (db.sent slot) else db.sent slot := by
  rw [sent_write, sent_write, sent_write]
  split_ifs with h₁ h₂ h₃
  · cases h₂
  · rw [h₁]
  · rw [h₃]
  · rfl

end Counters

theorem increment_spec {sent? : Option ℕ} {cap n : ℕ} (hcap : 1 ≤ cap)
    (h : increment sent? cap = some n) : n = sent?.getD 0 + 1 ∧ n ≤ cap := by
  unfold increment at h
  cases sent? with
  | none =>
    simp only [Option.elim_none, Option.some.injEq] at h
    simp only [Option.getD_none]
    omega
  | some sent =>
    simp only [Option.elim_some] at h
    split_ifs at h with hlt
    simp only [Option.some.injEq] at h
    simp only [Option.getD_some]
    omega

/-! ## What a transaction has read -/

section Facts

variable (caps : Caps) (destinationHash : Text → Text)

/-- A row that is given back: one of the delivery's own day, or one that counts nothing. -/
def Back (db : Counters) (d : Delivery) (today : ℕ) (slot : Slot) (written : Option ℕ) : Prop :=
  ∀ n, written = some n → ∃ m, db.sent? slot = some m ∧ n = m - 1 ∧ (d.day = today ∨ m = 0)

/-- What is committed under the values that the transaction has written. -/
def fact (d : Delivery) (db : Counters) : Prop :=
  match d.stage with
  | .destinationTaken v =>
    increment (db.sent? (d.slot destinationHash d.day)) caps.perDestination = some v
  | .taken v w =>
    increment (db.sent? (d.slot destinationHash d.day)) caps.perDestination = some v ∧
      increment (db.sent? (.day d.day)) caps.perDay = some w
  | .refusing v => db.sent (d.slot destinationHash d.day) = v
  | .destinationBack today v => Back db d today (d.slot destinationHash today) v
  | .givenBack today v w =>
    Back db d today (d.slot destinationHash today) v ∧ Back db d today (.day today) w
  | _ => True

variable {caps destinationHash} {db db' : Counters} {d : Delivery} {slot : Slot} {written : Option ℕ}

theorem Back.congr {today : ℕ} (h : Back db d today slot written)
    (hagree : ∀ n, written = some n → db'.sent? slot = db.sent? slot) :
    Back db' d today slot written := by
  intro n hn
  rw [hagree n hn]
  exact h n hn

/-- A fact depends on the rows its transaction has locked. -/
theorem fact_congr (hagree : ∀ k, Store.Pins (locks destinationHash) d k →
    db'.sent? k = db.sent? k) (h : fact caps destinationHash d db) :
    fact caps destinationHash d db' := by
  obtain ⟨destination, day, stage⟩ := d
  have hpin : ∀ k, (∃ m, (k, m) ∈ locks destinationHash ⟨destination, day, stage⟩ ∧ m.pins = true) →
      db'.sent? k = db.sent? k := fun k hk => hagree k hk
  cases stage with
  | destinationTaken v =>
    have h₁ := hpin (Delivery.slot destinationHash ⟨destination, day, .destinationTaken v⟩ day)
      ⟨.noKeyUpdate, by simp [locks, lockOf], rfl⟩
    show increment _ _ = _
    rw [h₁]
    exact h
  | taken v w =>
    have h₁ := hpin (Delivery.slot destinationHash ⟨destination, day, .taken v w⟩ day)
      ⟨.noKeyUpdate, by simp [locks, lockOf], rfl⟩
    have h₂ := hpin (.day day) ⟨.noKeyUpdate, by simp [locks, lockOf], rfl⟩
    show increment _ _ = _ ∧ increment _ _ = _
    rw [h₁, h₂]
    exact h
  | refusing v =>
    have h₁ := hpin (Delivery.slot destinationHash ⟨destination, day, .refusing v⟩ day)
      ⟨.noKeyUpdate, by simp [locks, lockOf], rfl⟩
    show (db'.sent? _).getD 0 = _
    rw [h₁]
    exact h
  | destinationBack today v =>
    refine Back.congr h fun n hn => hpin _ ⟨.noKeyUpdate, ?_, rfl⟩
    simp [locks, lockOf, hn]
  | givenBack today v w =>
    refine ⟨Back.congr h.1 fun n hn => hpin _ ⟨.noKeyUpdate, ?_, rfl⟩,
      Back.congr h.2 fun n hn => hpin _ ⟨.noKeyUpdate, ?_, rfl⟩⟩
    · simp [locks, lockOf, hn]
    · simp [locks, lockOf, hn]
  | destinationCap | dailyCap | reserved | sent | failed | skipped | released _ | aborted =>
    trivial

/-- A commit leaves the rows its transaction has not locked. -/
theorem sent?_writes (hk : ¬ Store.Changes (locks destinationHash) d slot) :
    (writes destinationHash d db).sent? slot = db.sent? slot := by
  have hwrite : ∀ (k : Slot) (v : Option ℕ) (db : Counters),
      (∀ n, v = some n → ∃ m, (k, m) ∈ locks destinationHash d ∧ m.changes = true) →
        (write k v db).sent? slot = db.sent? slot := by
    intro k v db hv
    rw [Counters.sent?_write]
    split_ifs with heq
    · cases v with
      | none => rw [heq]; rfl
      | some n => exact absurd (heq ▸ hv n rfl) hk
    · rfl
  obtain ⟨destination, day, stage⟩ := d
  cases stage with
  | taken v w =>
    show (write _ _ (write _ _ db)).sent? slot = _
    rw [hwrite, hwrite]
    · exact fun n _ => ⟨.noKeyUpdate, by simp [locks, lockOf], rfl⟩
    · exact fun n _ => ⟨.noKeyUpdate, by simp [locks, lockOf], rfl⟩
  | refusing v =>
    exact hwrite _ _ _ fun n _ => ⟨.noKeyUpdate, by simp [locks, lockOf], rfl⟩
  | givenBack today v w =>
    show (write _ _ (write _ _ db)).sent? slot = _
    rw [hwrite, hwrite]
    · exact fun n hn => ⟨.noKeyUpdate, by simp [locks, lockOf, hn], rfl⟩
    · exact fun n hn => ⟨.noKeyUpdate, by simp [locks, lockOf, hn], rfl⟩
  | destinationTaken _ | destinationCap | dailyCap | reserved | sent | failed | skipped
  | destinationBack _ _ | released _ | aborted => rfl

end Facts

/-! ## What is counted -/

/-- The delivery holds its slots: it took them, and has not given back those of its day. -/
def Delivery.holds (d : Delivery) : Bool :=
  match d.stage with
  | .reserved | .sent | .failed | .skipped | .destinationBack _ _ | .givenBack _ _ _ => true
  | .released today => today != d.day
  | _ => false

/-- The delivery goes out, or did. -/
def Delivery.goesOut (d : Delivery) : Bool :=
  match d.stage with
  | .reserved | .sent | .failed => true
  | _ => false

section Count

variable (caps : Caps) (destinationHash : Text → Text)

/-- The delivery is counted in the row. -/
def Delivery.counted (slot : Slot) (d : Delivery) : Bool :=
  d.holds && (decide (slot = .day d.day) || decide (slot = d.slot destinationHash d.day))

/-- How many deliveries hold a slot of the row. -/
def held (s : Sends) (slot : Slot) : ℕ :=
  s.txs.rows.countP fun e => e.2.counted destinationHash slot

/-- The rows count every delivery that holds one of their slots, and keep to their caps. -/
structure Inv (s : Sends) : Prop where
  exclusive : s.Exclusive (locks destinationHash)
  facts : s.Facts (fact caps destinationHash)
  bounded : ∀ slot, held destinationHash s slot ≤ s.db.sent slot ∧ s.db.sent slot ≤ caps.of slot

variable {caps destinationHash} {s : Sends} {t : ℕ} {d q : Delivery} {slot : Slot}

theorem held_put : held destinationHash (s.put t d) slot +
      (if (s.phase? t).any (Delivery.counted destinationHash slot) then 1 else 0) =
    held destinationHash s slot + if d.counted destinationHash slot then 1 else 0 :=
  Table.countP_put _

theorem held_put_of (h : s.phase? t = some q) : held destinationHash (s.put t d) slot +
      (if q.counted destinationHash slot then 1 else 0) =
    held destinationHash s slot + if d.counted destinationHash slot then 1 else 0 := by
  have hput := @held_put destinationHash s t d slot
  rw [h, Option.any_some] at hput
  exact hput

/-- A delivery that holds no slot it did not hold before. -/
theorem Inv.put (h : Inv caps destinationHash s)
    (hexclusive : (s.put t d).Exclusive (locks destinationHash))
    (hfact : fact caps destinationHash d s.db)
    (hcounted : ∀ slot, d.counted destinationHash slot = true →
      (s.phase? t).any (Delivery.counted destinationHash slot) = true) :
    Inv caps destinationHash (s.put t d) := by
  refine ⟨hexclusive, h.facts.put hfact, fun slot => ⟨?_, (h.bounded slot).2⟩⟩
  have hput := @held_put destinationHash s t d slot
  have hbound := (h.bounded slot).1
  show _ ≤ s.db.sent slot
  by_cases hd : d.counted destinationHash slot = true
  · rw [if_pos (hcounted slot hd), if_pos hd] at hput
    omega
  · rw [if_neg hd] at hput
    omega

/-- A commit that counts what it changes. -/
theorem Inv.commit (h : Inv caps destinationHash s) (hd : s.phase? t = some d)
    (hlocks : locks destinationHash q = []) (hfact : ∀ db, fact caps destinationHash q db)
    (hbounded : ∀ slot, held destinationHash (s.put t q) slot ≤ (writes destinationHash d s.db).sent slot ∧
      (writes destinationHash d s.db).sent slot ≤ caps.of slot) :
    Inv caps destinationHash (s.commit (writes destinationHash) t d q) := by
  refine ⟨h.exclusive.commit hlocks, ?_, hbounded⟩
  refine h.facts.commit h.exclusive hd (fun k db db' => db'.sent? k = db.sent? k)
    (fun _ _ _ => True) (fun k hk => sent?_writes hk) (fun _ _ => trivial)
    (fun r db' hagree _ => fact_congr hagree) (hfact _)

/-! ## Steps -/

theorem counted_of_holds {stage : Stage}
    (hholds : Delivery.holds { d with stage := stage } = true → d.holds = true)
    (h : Delivery.counted destinationHash slot { d with stage := stage } = true) :
    d.counted destinationHash slot = true := by
  unfold Delivery.counted at h ⊢
  rw [Bool.and_eq_true] at h ⊢
  exact ⟨hholds h.1, h.2⟩

/-- The delivery goes on without a commit. -/
theorem Inv.comes (h : Inv caps destinationHash s) (hd : s.phase? t = some d) {stage : Stage}
    (hexclusive : (d.comes s t stage).Exclusive (locks destinationHash))
    (hfact : fact caps destinationHash { d with stage := stage } s.db)
    (hholds : Delivery.holds { d with stage := stage } = true → d.holds = true) :
    Inv caps destinationHash (d.comes s t stage) := by
  refine h.put hexclusive hfact fun slot hslot => ?_
  rw [hd, Option.any_some]
  exact counted_of_holds hholds hslot

/-- The delivery leaves its transaction, or goes on outside of one. -/
theorem Inv.comes_free (h : Inv caps destinationHash s) (hd : s.phase? t = some d) {stage : Stage}
    (hlocks : locks destinationHash { d with stage := stage } = [])
    (hfact : fact caps destinationHash { d with stage := stage } s.db)
    (hholds : Delivery.holds { d with stage := stage } = true → d.holds = true) :
    Inv caps destinationHash (d.comes s t stage) :=
  h.comes hd (h.exclusive.put_free hlocks) hfact hholds

theorem Inv.rolledBack (h : Inv caps destinationHash s) (hd : s.phase? t = some d) :
    Inv caps destinationHash (rolledBack s t d) := by
  unfold TlsRpt.rolledBack
  split
  all_goals first
    | exact h
    | exact h.comes_free hd rfl trivial fun hholds => absurd hholds Bool.false_ne_true

/-- A row is locked and given back, or there is none. -/
theorem Inv.giveBack (h : Inv caps destinationHash s) (hd : s.phase? t = some d) {slot : Slot}
    {stage : Option ℕ → Stage} (hheld : d.holds = true)
    (hlocks : ∀ v, ∀ l ∈ locks destinationHash { d with stage := stage v },
      l ∈ locks destinationHash d ∨ l ∈ lockOf slot v)
    (hfact : ∀ v, (∀ n, v = some n → ∃ m, s.db.sent? slot = some m ∧ n = m - 1) →
      fact caps destinationHash { d with stage := stage v } s.db) :
    Inv caps destinationHash (giveBack destinationHash s t slot fun v => d.comes s t (stage v)) := by
  unfold TlsRpt.giveBack
  cases hsent : s.db.sent? slot with
  | none =>
    refine h.comes hd (h.exclusive.put_held hd fun l hl => ?_) (hfact none fun n hn => ?_)
      fun _ => hheld
    · exact (hlocks none l hl).resolve_right List.not_mem_nil
    · cases hn
  | some m =>
    rw [Option.elim_some]
    split_ifs with hgrants
    · refine h.comes hd (h.exclusive.put_more hd hgrants fun l hl => hlocks _ l hl)
        (hfact _ fun n hn => ?_) fun _ => hheld
      rw [Option.some.injEq] at hn
      exact ⟨m, hsent, hn.symm⟩
    · exact h

/-- **Both slots are taken.** -/
theorem Inv.commit_taken (h : Inv caps destinationHash s) {v w : ℕ}
    (hd : s.phase? t = some d) (hstage : d.stage = .taken v w) :
    Inv caps destinationHash
      (s.commit (writes destinationHash) t d { d with stage := .reserved }) := by
  have hfact := h.facts t d hd
  unfold fact at hfact
  rw [hstage] at hfact
  dsimp only at hfact
  obtain ⟨hv, hvcap⟩ := increment_spec caps.perDestination_pos hfact.1
  obtain ⟨hw, hwcap⟩ := increment_spec caps.perDay_pos hfact.2
  refine h.commit hd rfl (fun _ => trivial) fun slot => ?_
  have hput := @held_put_of destinationHash s t { d with stage := .reserved } d slot hd
  have hbound := h.bounded slot
  have hsent : (writes destinationHash d s.db).sent slot =
      if slot = .day d.day then w else if slot = d.slot destinationHash d.day then v
      else s.db.sent slot := by
    unfold writes
    rw [hstage]
    exact Counters.sent_write_write
  have hcounted : Delivery.counted destinationHash slot { d with stage := .reserved } =
      (decide (slot = .day d.day) || decide (slot = d.slot destinationHash d.day)) := rfl
  rw [hcounted] at hput
  rw [hsent]
  by_cases hday : slot = .day d.day
  · subst hday
    rw [if_pos rfl]
    simp only [decide_true, Bool.true_or, if_true] at hput
    refine ⟨?_, hwcap⟩
    have : s.db.sent (.day d.day) + 1 = w := hw.symm
    omega
  · by_cases hdest : slot = d.slot destinationHash d.day
    · subst hdest
      rw [if_neg hday, if_pos rfl]
      simp only [decide_true, Bool.or_true, if_true] at hput
      refine ⟨?_, hvcap⟩
      have : s.db.sent (d.slot destinationHash d.day) + 1 = v := hv.symm
      omega
    · rw [if_neg hday, if_neg hdest]
      simp only [hday, hdest, decide_false, Bool.or_self, Bool.false_eq_true, if_false] at hput
      omega

/-- **A refusal by the daily cap.** Both counters are as they were. -/
theorem sent_refusing (h : s.Facts (fact caps destinationHash)) {v : ℕ} (hd : s.phase? t = some d)
    (hstage : d.stage = .refusing v) : (writes destinationHash d s.db).sent slot = s.db.sent slot := by
  have hfact := h t d hd
  unfold fact at hfact
  unfold writes
  rw [hstage] at hfact ⊢
  dsimp only at hfact ⊢
  rw [Counters.sent_write]
  split_ifs with hslot
  · rw [hslot, hfact]
    rfl
  · rfl

theorem Inv.commit_refusing (h : Inv caps destinationHash s) {v : ℕ}
    (hd : s.phase? t = some d) (hstage : d.stage = .refusing v) :
    Inv caps destinationHash
      (s.commit (writes destinationHash) t d { d with stage := .dailyCap }) := by
  refine h.commit hd rfl (fun _ => trivial) fun slot => ?_
  have hput := @held_put_of destinationHash s t { d with stage := .dailyCap } d slot hd
  have hcounted : Delivery.counted destinationHash slot { d with stage := .dailyCap } = false := rfl
  rw [hcounted, if_neg Bool.false_ne_true] at hput
  rw [sent_refusing h.facts hd hstage]
  have hbound := h.bounded slot
  omega

/-- **Both slots are given back.** -/
theorem Inv.commit_givenBack (h : Inv caps destinationHash s) {today : ℕ} {v w : Option ℕ}
    (hd : s.phase? t = some d) (hstage : d.stage = .givenBack today v w) :
    Inv caps destinationHash
      (s.commit (writes destinationHash) t d { d with stage := .released today }) := by
  have hfact := h.facts t d hd
  unfold fact at hfact
  rw [hstage] at hfact
  dsimp only at hfact
  refine h.commit hd rfl (fun _ => trivial) fun slot => ?_
  have hput := @held_put_of destinationHash s t { d with stage := .released today } d slot hd
  have hbound := h.bounded slot
  have hsent : (writes destinationHash d s.db).sent slot =
      if slot = .day today then w.getD (s.db.sent slot)
      else if slot = d.slot destinationHash today then v.getD (s.db.sent slot)
      else s.db.sent slot := by
    unfold writes
    rw [hstage]
    exact Counters.sent_write_write
  have hheld : d.counted destinationHash slot =
      (decide (slot = .day d.day) || decide (slot = d.slot destinationHash d.day)) := by
    unfold Delivery.counted Delivery.holds
    rw [hstage, Bool.true_and]
  have hafter : Delivery.counted destinationHash slot { d with stage := .released today } =
      ((today != d.day) && (decide (slot = .day d.day) ||
        decide (slot = d.slot destinationHash d.day))) := rfl
  -- one row after the other: what it counts falls by at most what the delivery held
  have hback : ∀ (k : Slot) (u : Option ℕ), Back s.db d today k u →
      (d.day = today ∧ s.db.sent k - 1 ≤ u.getD (s.db.sent k) ∧ u.getD (s.db.sent k) ≤ s.db.sent k) ∨
        u.getD (s.db.sent k) = s.db.sent k := by
    intro k u hu
    cases u with
    | none => exact .inr rfl
    | some n =>
      obtain ⟨m, hm, rfl, hor⟩ := hu n rfl
      have hk : s.db.sent k = m := by
        unfold Counters.sent
        rw [hm]
        rfl
      rw [hk, Option.getD_some]
      rcases hor with hday | rfl
      · exact .inl ⟨hday, le_rfl, Nat.sub_le _ _⟩
      · exact .inr rfl
  rw [hsent]
  rw [hheld, hafter] at hput
  by_cases hday : d.day = today
  · subst hday
    simp only [bne_self_eq_false, Bool.false_and, Bool.false_eq_true, if_false] at hput
    by_cases h₁ : slot = .day d.day
    · subst h₁
      simp only [decide_true, Bool.true_or, if_true] at hput ⊢
      rcases hback _ _ hfact.2 with ⟨-, hge, hle⟩ | heq <;> omega
    · by_cases h₂ : slot = d.slot destinationHash d.day
      · subst h₂
        rw [if_neg h₁, if_pos rfl]
        simp only [decide_true, Bool.or_true, if_true] at hput
        rcases hback _ _ hfact.1 with ⟨-, hge, hle⟩ | heq <;> omega
      · rw [if_neg h₁, if_neg h₂]
        omega
  · have hne : (today != d.day) = true := bne_iff_ne.mpr (Ne.symm hday)
    rw [hne, Bool.true_and] at hput
    have hkeep : ∀ (k : Slot) (u : Option ℕ), Back s.db d today k u →
        u.getD (s.db.sent k) = s.db.sent k := fun k u hu =>
      (hback k u hu).resolve_left fun hl => hday hl.1
    have hwritten : (if slot = .day today then w.getD (s.db.sent slot)
        else if slot = d.slot destinationHash today then v.getD (s.db.sent slot)
        else s.db.sent slot) = s.db.sent slot := by
      split_ifs with h₁ h₂
      · exact hkeep _ _ (h₁ ▸ hfact.2)
      · exact hkeep _ _ (h₂ ▸ hfact.1)
      · rfl
    rw [hwritten]
    omega

theorem Inv.reserve (h : Inv caps destinationHash s) {destination : Text} {today : ℕ}
    (hg : s.grants (locks destinationHash) t
      [(.destination today (destinationHash destination), .noKeyUpdate)] = true) :
    Inv caps destinationHash (s.put t ⟨destination, today,
      (increment (s.db.sent? (.destination today (destinationHash destination)))
        caps.perDestination).elim .destinationCap .destinationTaken⟩) := by
  cases hinc : increment (s.db.sent? (.destination today (destinationHash destination)))
      caps.perDestination with
  | none =>
    refine h.put (h.exclusive.put_free rfl) trivial fun slot hslot => ?_
    exact absurd hslot Bool.false_ne_true
  | some v =>
    refine h.put (h.exclusive.put hg) hinc fun slot hslot => ?_
    exact absurd hslot Bool.false_ne_true

theorem Inv.takeDaily (h : Inv caps destinationHash s) {v : ℕ} (hd : s.phase? t = some d)
    (hstage : d.stage = .destinationTaken v) (hg : s.grants (locks destinationHash) t
      [(.day d.day, .noKeyUpdate)] = true) :
    Inv caps destinationHash (d.comes s t ((increment (s.db.sent? (.day d.day)) caps.perDay).elim
      (.refusing (v - 1)) (.taken v))) := by
  have hfact := h.facts t d hd
  unfold fact at hfact
  rw [hstage] at hfact
  dsimp only at hfact
  have hlocks : locks destinationHash d = lockOf (d.slot destinationHash d.day) (some v) := by
    unfold locks
    rw [hstage]
  cases hinc : increment (s.db.sent? (.day d.day)) caps.perDay with
  | none =>
    refine h.comes hd (h.exclusive.put_more hd hg fun l hl => ?_) ?_ fun hholds =>
      absurd hholds Bool.false_ne_true
    · rw [hlocks]
      exact List.mem_append.mp hl
    · have hv := (increment_spec caps.perDestination_pos hfact).1
      show (s.db.sent? (d.slot destinationHash d.day)).getD 0 = v - 1
      omega
  | some w =>
    refine h.comes hd (h.exclusive.put_more hd hg fun l hl => ?_) ⟨hfact, hinc⟩ fun hholds =>
      absurd hholds Bool.false_ne_true
    rw [hlocks]
    exact List.mem_append.mp hl

end Count

/-! ## Every run -/

section Runs

variable (caps : Caps) (destinationHash : Text → Text)

/-- Nothing is given back to another day: a slot is given back on the day it was taken, or to a row
that counts nothing. -/
def onItsDay (s : Sends) : Step → Bool
  | .release t today => (s.phase? t).all fun d =>
    d.day == today || s.db.sent (d.slot destinationHash today) == 0
  | .next t => (s.phase? t).all fun d =>
    match d.stage with
    | .destinationBack today _ => d.day == today || s.db.sent (.day today) == 0
    | _ => true
  | _ => true

variable {caps destinationHash} {s : Sends}

theorem back_of_onItsDay {d : Delivery} {today : ℕ} {slot : Slot} {v : Option ℕ}
    (hday : (d.day == today || s.db.sent slot == 0) = true)
    (hv : ∀ n, v = some n → ∃ m, s.db.sent? slot = some m ∧ n = m - 1) :
    Back s.db d today slot v := by
  intro n hn
  obtain ⟨m, hm, hnm⟩ := hv n hn
  refine ⟨m, hm, hnm, ?_⟩
  rw [Bool.or_eq_true, beq_iff_eq, beq_iff_eq] at hday
  unfold Counters.sent at hday
  rw [hm] at hday
  exact hday

/-- **One step.** -/
theorem Inv.step (h : Inv caps destinationHash s) (a : Step)
    (ha : onItsDay destinationHash s a = true) :
    Inv caps destinationHash (step caps destinationHash s a) := by
  cases a with
  | reserve t destination today =>
    show Inv caps destinationHash (if _ then _ else _)
    split_ifs with hif
    · exact h.reserve hif.2
    · exact h
  | rollback t =>
    cases hd : s.phase? t with
    | none => simpa [TlsRpt.step, hd] using h
    | some d => simpa [TlsRpt.step, hd] using h.rolledBack hd
  | deliver t outcome =>
    cases hd : s.phase? t with
    | none => simpa [TlsRpt.step, hd] using h
    | some d =>
      simp only [TlsRpt.step, hd, Option.elim_some]
      split
      · next hstage =>
        have hholds : d.holds = true := by
          unfold Delivery.holds
          rw [hstage]
        cases outcome <;> exact h.comes_free hd rfl trivial fun _ => hholds
      · exact h
  | release t today =>
    cases hd : s.phase? t with
    | none => simpa [TlsRpt.step, hd] using h
    | some d =>
      simp only [TlsRpt.step, hd, Option.elim_some]
      split
      · next hstage =>
        have hday : (d.day == today || s.db.sent (d.slot destinationHash today) == 0) = true := by
          simpa [onItsDay, hd] using ha
        refine h.giveBack hd ?_ (fun v l hl => .inr hl) fun v hv => ?_
        · unfold Delivery.holds
          rw [hstage]
        · exact back_of_onItsDay hday hv
      · exact h
  | next t =>
    cases hd : s.phase? t with
    | none => simpa [TlsRpt.step, hd] using h
    | some d =>
      simp only [TlsRpt.step, hd, Option.elim_some]
      unfold nextStatement
      cases hstage : d.stage with
      | destinationTaken v =>
        dsimp only
        split_ifs with hg
        · exact h.takeDaily hd hstage hg
        · exact h
      | taken v w => exact h.commit_taken hd hstage
      | refusing v => exact h.commit_refusing hd hstage
      | destinationBack today v =>
        have hday : (d.day == today || s.db.sent (.day today) == 0) = true := by
          simpa [onItsDay, hd, hstage] using ha
        have hlocks : locks destinationHash d = lockOf (d.slot destinationHash today) v := by
          unfold locks
          rw [hstage]
        have hfact := h.facts t d hd
        unfold fact at hfact
        rw [hstage] at hfact
        refine h.giveBack hd ?_ (fun w l hl => ?_) fun w hw => ?_
        · unfold Delivery.holds
          rw [hstage]
        · rw [hlocks]
          exact List.mem_append.mp hl
        · exact ⟨hfact, back_of_onItsDay hday hw⟩
      | givenBack today v w => exact h.commit_givenBack hd hstage
      | destinationCap | dailyCap | reserved | sent | failed | skipped | released _ | aborted =>
        exact h

theorem inv_init : Inv caps destinationHash (Store.init .none) := by
  refine ⟨Store.exclusive_init _, Store.facts_init _, fun slot => ?_⟩
  cases slot <;> exact ⟨le_rfl, Nat.zero_le _⟩

variable (caps destinationHash) in
/-- What the caps promise: of the deliveries reserved on a day at most so many go out, in all and to
one destination, and the commit of a reservation that the daily cap refused changes no counter. -/
structure KeepsCaps (s : Sends) : Prop where
  daily : ∀ day, (s.txs.rows.countP fun e => e.2.goesOut && decide (e.2.day = day)) ≤ caps.perDay
  destinations : ∀ day destination, (s.txs.rows.countP fun e => e.2.goesOut &&
    (decide (e.2.day = day) && decide (e.2.destination = destination))) ≤ caps.perDestination
  refused : ∀ t d v, s.phase? t = some d → d.stage = .refusing v → ∀ slot,
    (step caps destinationHash s (.next t)).db.sent slot = s.db.sent slot

theorem holds_of_goesOut {d : Delivery} (h : d.goesOut = true) : d.holds = true := by
  unfold Delivery.goesOut at h
  unfold Delivery.holds
  cases hstage : d.stage <;> simp_all

theorem Inv.keepsCaps (h : Inv caps destinationHash s) : KeepsCaps caps destinationHash s := by
  constructor
  · intro day
    refine le_trans (List.countP_mono_left fun e _ he => ?_) ((h.bounded (.day day)).1.trans
      (h.bounded (.day day)).2)
    rw [Bool.and_eq_true, decide_eq_true_iff] at he
    simp [Delivery.counted, holds_of_goesOut he.1, he.2]
  · intro day destination
    refine le_trans (List.countP_mono_left fun e _ he => ?_)
      ((h.bounded (.destination day (destinationHash destination))).1.trans
        (h.bounded (.destination day (destinationHash destination))).2)
    simp only [Bool.and_eq_true, decide_eq_true_iff] at he
    simp [Delivery.counted, Delivery.slot, holds_of_goesOut he.1, he.2.1, he.2.2]
  · intro t d v hd hstage slot
    have hstep : TlsRpt.step caps destinationHash s (.next t) =
        s.commit (writes destinationHash) t d { d with stage := .dailyCap } := by
      simp only [TlsRpt.step, hd, Option.elim_some, nextStatement, hstage]
    rw [hstep, Store.db_commit]
    exact sent_refusing h.facts hd hstage

/-- **The daily caps.** As long as no slot is given back to another day than the one it was taken
on, the deliveries of every day keep to both caps, however many replicas reserve and release. -/
theorem keepsCaps_onItsDay (caps : Caps) (destinationHash : Text → Text) (steps : List Step)
    (h : Along (step caps destinationHash) (fun s a => onItsDay destinationHash s a = true)
      (Store.init .none) steps) :
    KeepsCaps caps destinationHash (run (step caps destinationHash) (Store.init .none) steps) :=
  (Run.invariant (Inv caps destinationHash) (fun _ a hs ha => hs.step a ha) inv_init h).keepsCaps

/-- A delivery that is skipped on its own day makes room for another. -/
theorem keepsCaps_onItsDay_skipped :
    let caps : Caps := ⟨1, 1, le_rfl, le_rfl⟩
    let steps : List Step := [.reserve 0 ['a'] 0, .next 0, .next 0, .deliver 0 .skipped,
      .release 0 0, .next 0, .next 0, .reserve 1 ['b'] 0, .next 1, .next 1, .deliver 1 .sent]
    Along (step caps id) (fun s a => onItsDay id s a = true) (Store.init .none) steps ∧
      KeepsCaps caps id (run (step caps id) (Store.init .none) steps) := by
  intro caps steps
  have h : Along (step caps id) (fun s a => onItsDay id s a = true) (Store.init .none) steps := by
    decide
  exact ⟨h, keepsCaps_onItsDay caps id steps h⟩

/-- A delivery reserved before midnight and skipped after it gives back a slot of the new day: two
go out on a day whose cap is one. -/
theorem not_keepsCaps_midnight :
    ¬ KeepsCaps ⟨1, 1, le_rfl, le_rfl⟩ id (run (step ⟨1, 1, le_rfl, le_rfl⟩ id) (Store.init .none)
      [.reserve 0 ['a'] 0, .next 0, .next 0,
        .reserve 1 ['b'] 1, .next 1, .next 1, .deliver 1 .sent,
        .deliver 0 .skipped, .release 0 1, .next 0, .next 0,
        .reserve 2 ['c'] 1, .next 2, .next 2, .deliver 2 .sent]) := by
  intro h
  have hdaily := h.daily 1
  revert hdaily
  decide

end Runs

end BunMail.TlsRpt
