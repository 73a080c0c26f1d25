import BunMail.Utils.DnsWire

/-!
# Reading a name

`readName` reads exactly the names of at most 255 bytes and 32 pointers.  Each turn of its loop adds to
the name's bytes or to its pointers, so it ends; each read is checked before it is made.
-/

namespace BunMail.DnsWire

open Text Dns

/-! ## Faults -/

/-- What is not well-formed is `malformed`: no read leaves the message, every loop ends. -/
def Tame {α : Type} (p : Except Fault α) : Prop := ∀ fault, p = .error fault → fault = .malformed

section Tame

variable {α β : Type}

theorem tame_ok (a : α) : Tame (.ok a : Except Fault α) := fun _ h => by cases h

theorem tame_malformed : Tame (.error .malformed : Except Fault α) := fun fault h => by
  cases h
  rfl

theorem Tame.bind {p : Except Fault α} {f : α → Except Fault β} (hp : Tame p)
    (hf : ∀ a, p = .ok a → Tame (f a)) : Tame (p >>= f) := by
  intro fault h
  cases p with
  | error _ =>
    cases h
    exact hp _ rfl
  | ok a => exact hf a rfl fault h

/-- What a successful sequence has read. -/
theorem bind_eq_ok {p : Except Fault α} {f : α → Except Fault β} {b : β} :
    p >>= f = .ok b ↔ ∃ a, p = .ok a ∧ f a = .ok b := by
  cases p with
  | error fault => exact ⟨fun h => (by cases h), fun ⟨_, h, _⟩ => (by cases h)⟩
  | ok a =>
    refine ⟨fun h => ⟨a, rfl, h⟩, ?_⟩
    rintro ⟨_, h, h'⟩
    cases h
    exact h'

end Tame

/-! ## Bytes -/

variable {m : Bytes}

theorem top_bits (b : UInt8) : (b &&& 0xc0 = 0xc0 ↔ 192 ≤ b.toNat) ∧
    (b &&& 0xc0 ≠ 0 ↔ 64 ≤ b.toNat) ∧ (b &&& 0x3f).toNat = b.toNat % 64 := by
  have hall : ∀ n : Fin 256, (n.val &&& 192 = 192 ↔ 192 ≤ n.val) ∧ (n.val &&& 192 = 0 ↔ n.val < 64) := by
    decide +kernel
  obtain ⟨h₁, h₂⟩ := hall ⟨b.toNat, b.toNat_lt⟩
  refine ⟨?_, ?_, ?_⟩
  · rw [← UInt8.toNat_inj, UInt8.toNat_and]
    exact h₁
  · rw [Ne, ← UInt8.toNat_inj, UInt8.toNat_and, ← not_lt]
    exact not_congr h₂
  · rw [UInt8.toNat_and]
    exact Nat.and_two_pow_sub_one_eq_mod _ 6

/-- Where a pointer points. -/
theorem pointer_target (hi lo : UInt8) (h : 192 ≤ hi.toNat) :
    (hi &&& 0x3f).toNat <<< 8 ||| lo.toNat = 256 * (hi.toNat - 192) + lo.toNat := by
  have hlt := hi.toNat_lt
  have hmod : hi.toNat % 64 = hi.toNat - 192 := by omega
  rw [(top_bits hi).2.2, hmod, Nat.shiftLeft_eq, Nat.mul_comm]
  exact (Nat.two_pow_add_eq_or_of_lt lo.toNat_lt _).symm

theorem length_text {start stop : ℕ} (h : stop ≤ m.length) : (text m start stop).length = stop - start := by
  unfold text
  rw [List.length_map, List.length_take, List.length_drop]
  omega

theorem length_asciiLower (s : Text) : (asciiLower s).length = s.length := List.length_map _

theorem lt_length_of_getElem? {i : ℕ} {b : UInt8} (h : m[i]? = some b) : i < m.length :=
  (List.getElem?_eq_some_iff.mp h).1

/-! ## The loop -/

/-- **Soundness.** By induction on the turns. -/
theorem nameAt_of_readLabels {steps : ℕ} {acc labels : List Text} {at_ next wireBytes jumps : ℕ}
    {after : Option ℕ} (hjumps : jumps ≤ MAX_POINTER_JUMPS)
    (h : readLabels m steps acc at_ after wireBytes jumps = .ok (labels, next)) :
    ∃ j read stop, NameAt m j at_ read stop ∧ labels = acc ++ read ∧ next = after.getD stop ∧
      jumps + j ≤ MAX_POINTER_JUMPS ∧ wireBytes + wireLength read ≤ MAX_NAME_WIRE_BYTES := by
  induction steps generalizing acc at_ after wireBytes jumps with
  | zero => cases h
  | succ steps ih =>
    unfold readLabels at h
    cases hlength : m[at_]? with
    | none =>
      rw [hlength] at h
      cases h
    | some length =>
      rw [hlength] at h
      dsimp only at h
      by_cases hpointer : length &&& 0xc0 = 0xc0
      · have hhi := (top_bits length).1.mp hpointer
        rw [if_pos hpointer] at h
        cases hlow : m[at_ + 1]? with
        | none =>
          rw [hlow] at h
          cases h
        | some low =>
          rw [hlow] at h
          dsimp only at h
          rw [pointer_target length low hhi] at h
          split_ifs at h with hback hmany
          rw [not_or, not_le, not_lt] at hback
          obtain ⟨j, read, stop, hname, hread, hnext, hj, hwire⟩ := ih (not_lt.mp hmany) h
          refine ⟨j + 1, read, at_ + 2, .pointer hlength hhi hlow hback.1 hback.2 hname, hread, ?_,
            by omega, hwire⟩
          rw [hnext]
          cases after <;> rfl
      · rw [if_neg hpointer] at h
        by_cases hunknown : length &&& 0xc0 ≠ 0
        · rw [if_pos hunknown] at h
          cases h
        · have hshort : length.toNat < 64 := not_le.mp fun hle => hunknown ((top_bits length).2.1.mpr hle)
          rw [if_neg hunknown] at h
          split_ifs at h with hlong hroot hpast
          · obtain ⟨rfl, rfl⟩ := Prod.mk.inj (Except.ok.inj h)
            rw [hroot] at hlong hlength
            refine ⟨0, [], at_ + 1, .root hlength, (List.append_nil _).symm, rfl, hjumps, ?_⟩
            exact not_lt.mp hlong
          · obtain ⟨label, hlabel, h⟩ := bind_eq_ok.mp h
            have hend : at_ + 1 + length.toNat ≤ m.length := not_lt.mp hpast
            unfold latin1 at hlabel
            rw [if_pos ⟨Nat.le_add_right _ _, hend⟩] at hlabel
            obtain rfl := Except.ok.inj hlabel
            obtain ⟨j, read, stop, hname, hread, hnext, hj, hwire⟩ := ih hjumps h
            have hpos : 0 < length.toNat := Nat.pos_of_ne_zero fun h0 =>
              hroot (UInt8.toNat_inj.mp h0)
            refine ⟨j, _, stop, .label hlength hpos (Nat.lt_succ_iff.mp hshort) hend hname, ?_, hnext,
              hj, ?_⟩
            · rw [hread, List.append_assoc]
              rfl
            · unfold wireLength
              rw [length_asciiLower, length_text hend]
              omega

/-- **Completeness.** By induction on the name. -/
theorem readLabels_of_nameAt {j at_ stop : ℕ} {read : List Text} (h : NameAt m j at_ read stop)
    {steps : ℕ} {acc : List Text} {wireBytes jumps : ℕ} {after : Option ℕ}
    (hjumps : jumps + j ≤ MAX_POINTER_JUMPS)
    (hwire : wireBytes + wireLength read ≤ MAX_NAME_WIRE_BYTES) (hsteps : read.length + j < steps) :
    readLabels m steps acc at_ after wireBytes jumps = .ok (acc ++ read, after.getD stop) := by
  induction h generalizing steps acc wireBytes jumps after with
  | @root at_ h =>
    obtain ⟨steps, rfl⟩ : ∃ n, steps = n + 1 := ⟨steps - 1, by omega⟩
    unfold readLabels
    rw [h]
    dsimp only
    have hfits : ¬ MAX_NAME_WIRE_BYTES < wireBytes + ((0 : UInt8).toNat + 1) := not_lt.mpr hwire
    rw [if_neg (by decide), if_neg (by decide), if_neg hfits, if_pos rfl, List.append_nil]
  | @label j at_ stop length read h hpos hlen hend hrest ih =>
    obtain ⟨steps, rfl⟩ : ∃ n, steps = n + 1 := ⟨steps - 1, by omega⟩
    obtain ⟨hhigh, hunknown, _⟩ := top_bits length
    unfold wireLength at hwire
    rw [length_asciiLower, length_text hend] at hwire
    have hroot : length ≠ 0 := fun h0 => by
      rw [h0] at hpos
      exact absurd hpos (by decide)
    unfold readLabels
    rw [h]
    dsimp only
    rw [if_neg fun hp => by have := hhigh.mp hp; omega, if_neg fun hu => by
      have := hunknown.mp hu; omega, if_neg (by omega), if_neg hroot, if_neg (not_lt.mpr hend)]
    unfold latin1
    rw [if_pos ⟨Nat.le_add_right _ _, hend⟩]
    have hsteps' : read.length + j < steps := by
      rw [List.length_cons] at hsteps
      omega
    have hrec : readLabels m steps (acc ++ [asciiLower (text m (at_ + 1) (at_ + 1 + length.toNat))])
        (at_ + 1 + length.toNat) after (wireBytes + (length.toNat + 1)) jumps = _ :=
      ih hjumps (by omega) hsteps'
    rw [List.append_assoc] at hrec
    exact hrec
  | @pointer j at_ stop hi lo read h hhi hlo hback hhead hrest ih =>
    obtain ⟨steps, rfl⟩ : ∃ n, steps = n + 1 := ⟨steps - 1, by omega⟩
    unfold readLabels
    rw [h]
    dsimp only
    rw [if_pos ((top_bits hi).1.mpr hhi), hlo]
    dsimp only
    rw [pointer_target hi lo hhi, if_neg (by
      rw [not_or, not_le, not_lt]
      exact ⟨hback, hhead⟩), if_neg (by omega)]
    rw [ih (by omega) hwire (by omega)]
    cases after <;> rfl

/-- **The loop ends, and reads inside the message.** -/
theorem tame_readLabels {steps : ℕ} {acc : List Text} {at_ wireBytes jumps : ℕ} {after : Option ℕ}
    (hjumps : jumps ≤ MAX_POINTER_JUMPS) (hwire : wireBytes ≤ MAX_NAME_WIRE_BYTES)
    (hsteps : MAX_NAME_WIRE_BYTES + MAX_POINTER_JUMPS < steps + wireBytes + jumps) :
    Tame (readLabels m steps acc at_ after wireBytes jumps) := by
  induction steps generalizing acc at_ after wireBytes jumps with
  | zero => omega
  | succ steps ih =>
    unfold readLabels
    cases m[at_]? with
    | none => exact tame_malformed
    | some length =>
      dsimp only
      by_cases hpointer : length &&& 0xc0 = 0xc0
      · rw [if_pos hpointer]
        cases m[at_ + 1]? with
        | none => exact tame_malformed
        | some low =>
          dsimp only
          split_ifs with hback hmany
          · exact tame_malformed
          · exact tame_malformed
          · exact ih (not_lt.mp hmany) hwire (by omega)
      · rw [if_neg hpointer]
        split_ifs with hunknown hlong hroot hpast
        · exact tame_malformed
        · exact tame_malformed
        · exact tame_ok _
        · exact tame_malformed
        · have hend : at_ + 1 + length.toNat ≤ m.length := not_lt.mp hpast
          unfold latin1
          rw [if_pos ⟨Nat.le_add_right _ _, hend⟩]
          exact ih hjumps (not_lt.mp hlong) (by omega)

/-! ## Names -/

theorem length_le_wireLength (labels : List Text) : labels.length + 1 ≤ wireLength labels := by
  induction labels with
  | nil => exact le_rfl
  | cons label labels ih =>
    rw [List.length_cons]
    unfold wireLength
    omega

/-- **`readName` reads exactly the names within its limits.** -/
theorem readName_eq_ok {start next : ℕ} {labels : List Text} :
    readName m start = .ok (labels, next) ↔ Name m MAX_POINTER_JUMPS start labels next := by
  unfold readName
  constructor
  · intro h
    obtain ⟨j, read, stop, hname, rfl, rfl, hj, hwire⟩ := nameAt_of_readLabels (Nat.zero_le _) h
    rw [Nat.zero_add] at hj hwire
    exact ⟨j, hj, hname, hwire⟩
  · rintro ⟨j, hj, hname, hwire⟩
    have hlen := length_le_wireLength labels
    have hsteps : labels.length + j < MAX_NAME_WIRE_BYTES + MAX_POINTER_JUMPS + 2 := by
      have hbound : wireLength labels ≤ MAX_NAME_WIRE_BYTES := hwire
      omega
    exact readLabels_of_nameAt hname (by omega) (by rw [Nat.zero_add]; exact hwire) hsteps

theorem tame_readName (start : ℕ) : Tame (readName m start) :=
  tame_readLabels (Nat.zero_le _) (Nat.zero_le _) (by omega)

end BunMail.DnsWire
