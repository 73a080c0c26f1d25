import Mathlib.Data.Nat.Digits.Lemmas
import Mathlib.Tactic

/-!
# Regrouping the bits of digits

Digits of `a` bits are written as digits of `c` bits, the most significant first.  What has been taken
and not yet written stands in a buffer.  The digits written follow from the digits taken, and where the
buffer ends up empty the digits taken follow from the digits written.
-/

/-- The number that digits stand for, the most significant first. -/
def bigEndian (base : ℕ) (digits : List ℕ) : ℕ := Nat.ofDigits base digits.reverse

theorem bigEndian_concat (base : ℕ) (digits : List ℕ) (d : ℕ) :
    bigEndian base (digits ++ [d]) = base * bigEndian base digits + d := by
  unfold bigEndian
  rw [List.reverse_append, List.reverse_singleton, List.singleton_append, Nat.ofDigits_cons]
  exact Nat.add_comm _ _

theorem bigEndian_inj {base : ℕ} {digits digits' : List ℕ} (hbase : 1 < base)
    (hlength : digits.length = digits'.length) (hd : ∀ d ∈ digits, d < base)
    (hd' : ∀ d ∈ digits', d < base) (h : bigEndian base digits = bigEndian base digits') :
    digits = digits' := by
  have hreverse := Nat.ofDigits_inj_of_len_eq hbase (by simpa using hlength)
    (fun d hmem => hd d (List.mem_reverse.mp hmem)) (fun d hmem => hd' d (List.mem_reverse.mp hmem)) h
  exact List.reverse_injective hreverse

/-- `out` holds the first bits of `digits`, and the buffer the last `bits` ones. -/
structure Regrouped (a c : ℕ) (digits out : List ℕ) (buffer bits : ℕ) : Prop where
  value : bigEndian (2 ^ a) digits = bigEndian (2 ^ c) out * 2 ^ bits + buffer
  length : a * digits.length = c * out.length + bits
  small : buffer < 2 ^ bits
  written : ∀ d ∈ out, d < 2 ^ c

namespace Regrouped

variable {a c : ℕ} {digits digits' out out' : List ℕ} {buffer buffer' bits bits' d : ℕ}

theorem nil (a c : ℕ) : Regrouped a c [] [] 0 0 :=
  ⟨rfl, rfl, Nat.one_pos, fun _ h => absurd h List.not_mem_nil⟩

/-- A digit is taken into the buffer. -/
theorem take (h : Regrouped a c digits out buffer bits) (hd : d < 2 ^ a) :
    Regrouped a c (digits ++ [d]) out (buffer * 2 ^ a + d) (bits + a) := by
  refine ⟨?_, ?_, ?_, h.written⟩
  · rw [bigEndian_concat, h.value, pow_add]
    ring
  · rw [List.length_append, List.length_singleton, Nat.mul_add, h.length]
    omega
  · have hle : buffer + 1 ≤ 2 ^ bits := h.small
    calc buffer * 2 ^ a + d < buffer * 2 ^ a + 2 ^ a := Nat.add_lt_add_left hd _
      _ = (buffer + 1) * 2 ^ a := by ring
      _ ≤ 2 ^ bits * 2 ^ a := Nat.mul_le_mul_right _ hle
      _ = 2 ^ (bits + a) := (pow_add 2 bits a).symm

/-- A digit is written from the buffer. -/
theorem emit (h : Regrouped a c digits out buffer (bits + c)) :
    Regrouped a c digits (out ++ [buffer / 2 ^ bits]) (buffer % 2 ^ bits) bits := by
  have hpow : 0 < 2 ^ bits := Nat.two_pow_pos bits
  refine ⟨?_, ?_, Nat.mod_lt _ hpow, fun d hmem => ?_⟩
  · rw [h.value, bigEndian_concat, Nat.add_mul, Nat.add_assoc, Nat.div_add_mod', pow_add]
    ring
  · rw [h.length, List.length_append, List.length_singleton]
    ring
  · rcases List.mem_append.mp hmem with hmem | hmem
    · exact h.written d hmem
    · rw [List.mem_singleton.mp hmem]
      refine Nat.div_lt_of_lt_mul ?_
      rw [← pow_add]
      exact h.small

/-- The digits written, as far as whole ones can be, follow from the digits taken. -/
theorem unique (h : Regrouped a c digits out buffer bits) (h' : Regrouped a c digits out' buffer' bits')
    (hc : 0 < c) (hbits : bits < c) (hbits' : bits' < c) : out = out' ∧ buffer = buffer' := by
  have hlengths : c * out.length + bits = c * out'.length + bits' := h.length.symm.trans h'.length
  have hmod := congrArg (· % c) hlengths
  simp only [Nat.mul_add_mod, Nat.mod_eq_of_lt hbits, Nat.mod_eq_of_lt hbits'] at hmod
  subst hmod
  have hlength : out.length = out'.length := Nat.eq_of_mul_eq_mul_left hc (Nat.add_right_cancel hlengths)
  have hvalues : bigEndian (2 ^ c) out * 2 ^ bits + buffer = bigEndian (2 ^ c) out' * 2 ^ bits + buffer' :=
    h.value.symm.trans h'.value
  have hbuffer := congrArg (· % 2 ^ bits) hvalues
  simp only [Nat.mul_add_mod', Nat.mod_eq_of_lt h.small, Nat.mod_eq_of_lt h'.small] at hbuffer
  subst hbuffer
  refine ⟨bigEndian_inj (Nat.one_lt_two_pow hc.ne') hlength h.written h'.written ?_, rfl⟩
  exact Nat.eq_of_mul_eq_mul_right (Nat.two_pow_pos bits) (Nat.add_right_cancel hvalues)

/-- The digits taken follow from the digits written, where the buffer is empty at the end. -/
theorem unique_of_empty (h : Regrouped a c digits out 0 bits) (h' : Regrouped a c digits' out 0 bits')
    (ha : 0 < a) (hbits : bits < a) (hbits' : bits' < a) (hd : ∀ d ∈ digits, d < 2 ^ a)
    (hd' : ∀ d ∈ digits', d < 2 ^ a) : digits = digits' := by
  have hlength : digits.length = digits'.length := by
    have hl := h.length
    have hl' := h'.length
    rcases Nat.lt_trichotomy digits.length digits'.length with hlt | heq | hlt
    · have hmul := Nat.mul_le_mul_left a (Nat.succ_le_of_lt hlt)
      rw [Nat.mul_succ] at hmul
      omega
    · exact heq
    · have hmul := Nat.mul_le_mul_left a (Nat.succ_le_of_lt hlt)
      rw [Nat.mul_succ] at hmul
      omega
  have heq : bits = bits' := by
    have hl := h.length
    rw [hlength, h'.length] at hl
    omega
  subst heq
  exact bigEndian_inj (Nat.one_lt_two_pow ha.ne') hlength hd hd' (h.value.trans h'.value.symm)

/-- The last bits are written as the first ones of a digit: read back, they leave nothing. -/
theorem pad (h : Regrouped a c digits out buffer bits) (hbits : bits ≤ c) (hd : ∀ d ∈ digits, d < 2 ^ a) :
    Regrouped c a (out ++ [buffer * 2 ^ (c - bits)]) digits 0 (c - bits) := by
  refine ⟨?_, ?_, Nat.two_pow_pos _, hd⟩
  · rw [bigEndian_concat, h.value, Nat.add_mul, Nat.add_zero, Nat.mul_assoc, ← pow_add,
      Nat.add_sub_cancel' hbits, Nat.mul_comm]
  · rw [h.length, List.length_append, List.length_singleton]
    have hmul : c * (out.length + 1) = c * out.length + c := by ring
    omega

/-- Without a rest in the buffer nothing has to be padded. -/
theorem swap (h : Regrouped a c digits out buffer 0) (hd : ∀ d ∈ digits, d < 2 ^ a) :
    Regrouped c a out digits 0 0 := by
  have hbuffer : buffer = 0 := Nat.lt_one_iff.mp h.small
  refine ⟨?_, h.length.symm, Nat.one_pos, hd⟩
  rw [h.value, hbuffer]
  simp

end Regrouped
