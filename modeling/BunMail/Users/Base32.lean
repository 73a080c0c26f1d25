import BunMail.Lib.CodeUnits
import BunMail.Lib.Regroup

/-!
# Base32 of the TOTP secrets

`base32Encode` and `base32Decode` of `totp.service.ts`.  Both shift their input through a buffer of 32
bits.  A string is the list of its code units; a character outside the first plane is two of them, none
of which is in the alphabet.  The upper case of a string is a parameter, of which only the upper case
of an ASCII string is known.
-/

namespace BunMail.Users.Base32

open CodeUnits

def BASE32_ALPHABET : CodeUnits := of "ABCDEFGHIJKLMNOPQRSTUVWXYZ234567"

/-- `BASE32_ALPHABET[index]`. -/
def letterAt (index : ℕ) : UInt16 := BASE32_ALPHABET.getD index 0

/-- `BASE32_ALPHABET.indexOf(char)`. -/
def indexOf (char : UInt16) : Option ℕ := BASE32_ALPHABET.idxOf? char

/-! ## Encoding -/

/-- The variables of the loop over the bytes. -/
structure Encoder where
  output : CodeUnits
  buffer : BitVec 32
  bits : ℕ
  deriving DecidableEq

/-- The `while` loop: the output, and the bits that are left. -/
def emit (buffer : BitVec 32) : CodeUnits → ℕ → CodeUnits × ℕ
  | output, bits + 5 => emit buffer (output ++ [letterAt ((buffer >>> bits) &&& 31#32).toNat]) bits
  | output, bits => (output, bits)

/-- The buffer with the next byte. -/
def Encoder.shifted (st : Encoder) (byte : BitVec 8) : BitVec 32 := (st.buffer <<< 8) ||| byte.setWidth 32

def encodeByte (st : Encoder) (byte : BitVec 8) : Encoder :=
  let emitted := emit (st.shifted byte) st.output (st.bits + 8)
  { output := emitted.1
    buffer := st.shifted byte &&& ((1#32 <<< emitted.2) - 1#32)
    bits := emitted.2 }

def encodeBytes (bytes : List (BitVec 8)) : Encoder :=
  bytes.foldl encodeByte { output := [], buffer := 0#32, bits := 0 }

def base32Encode (bytes : List (BitVec 8)) : CodeUnits :=
  let st := encodeBytes bytes
  if 0 < st.bits then st.output ++ [letterAt ((st.buffer <<< (5 - st.bits)) &&& 31#32).toNat] else st.output

/-! ## Decoding -/

/-- The variables of the loop over the characters. -/
structure Decoder where
  bytes : List (BitVec 8)
  buffer : BitVec 32
  bits : ℕ
  deriving DecidableEq

/-- The buffer with the next value. -/
def Decoder.shifted (st : Decoder) (value : ℕ) : BitVec 32 := (st.buffer <<< 5) ||| BitVec.ofNat 32 value

def decodeValue (st : Decoder) (value : ℕ) : Decoder :=
  let bits := st.bits + 5
  if 8 ≤ bits then
    { bytes := st.bytes ++ [((st.shifted value >>> (bits - 8)) &&& 255#32).setWidth 8]
      buffer := st.shifted value &&& ((1#32 <<< (bits - 8)) - 1#32)
      bits := bits - 8 }
  else { st with buffer := st.shifted value &&& ((1#32 <<< bits) - 1#32), bits }

def decodeChar (st : Decoder) (char : UInt16) : Option Decoder := (indexOf char).map (decodeValue st)

def decodeChars (upper : CodeUnits) : Option Decoder :=
  upper.foldlM decodeChar { bytes := [], buffer := 0#32, bits := 0 }

def base32Decode (toUpperCase : CodeUnits → CodeUnits) (text : CodeUnits) : Option (List (BitVec 8)) :=
  let upper := toUpperCase text
  let remainder := upper.length % 8
  if remainder = 1 ∨ remainder = 3 ∨ remainder = 6 then none
  else (decodeChars upper).bind fun st => if st.buffer ≠ 0#32 then none else some st.bytes

/-! ## Words as numbers -/

/-- What is masked is the rest. -/
theorem toNat_and_mask (buffer : BitVec 32) {bits : ℕ} (h : bits < 32) :
    (buffer &&& ((1#32 <<< bits) - 1#32)).toNat = buffer.toNat % 2 ^ bits := by
  have hlt : 2 ^ bits < 2 ^ 32 := Nat.pow_lt_pow_right Nat.one_lt_two h
  have hpos := Nat.two_pow_pos bits
  have hone : (1#32 <<< bits).toNat = 2 ^ bits := by
    rw [BitVec.toNat_shiftLeft, BitVec.toNat_ofNat, Nat.shiftLeft_eq, Nat.one_mod_eq_one.mpr (by decide),
      Nat.one_mul, Nat.mod_eq_of_lt hlt]
  have hmask : ((1#32 <<< bits) - 1#32).toNat = 2 ^ bits - 1 := by
    rw [BitVec.toNat_sub, hone]
    have hnat : (1#32).toNat = 1 := rfl
    omega
  rw [BitVec.toNat_and, hmask, Nat.and_two_pow_sub_one_eq_mod]

theorem toNat_shiftRight_and (buffer : BitVec 32) (n : ℕ) {k : ℕ} (h : k < 32) :
    ((buffer >>> n) &&& BitVec.ofNat 32 (2 ^ k - 1)).toNat = buffer.toNat % 2 ^ (n + k) / 2 ^ n := by
  have hlt : 2 ^ k - 1 < 2 ^ 32 :=
    Nat.lt_of_le_of_lt (Nat.sub_le _ _) (Nat.pow_lt_pow_right Nat.one_lt_two h)
  rw [BitVec.toNat_and, BitVec.toNat_ofNat, Nat.mod_eq_of_lt hlt, Nat.and_two_pow_sub_one_eq_mod,
    BitVec.toNat_ushiftRight, Nat.shiftRight_eq_div_pow, pow_add, Nat.mod_mul_right_div_self]

/-- Bits are shifted in, as long as there is room for them. -/
theorem toNat_shift_or (buffer word : BitVec 32) {n k : ℕ} (hbuffer : buffer.toNat < 2 ^ n)
    (hword : word.toNat < 2 ^ k) (hroom : n + k ≤ 32) :
    ((buffer <<< k) ||| word).toNat = buffer.toNat * 2 ^ k + word.toNat := by
  have hlt : buffer.toNat * 2 ^ k < 2 ^ 32 :=
    calc buffer.toNat * 2 ^ k < 2 ^ n * 2 ^ k := Nat.mul_lt_mul_of_pos_right hbuffer (Nat.two_pow_pos k)
      _ = 2 ^ (n + k) := (pow_add 2 n k).symm
      _ ≤ 2 ^ 32 := Nat.pow_le_pow_right Nat.two_pos hroom
  rw [BitVec.toNat_or, BitVec.toNat_shiftLeft, Nat.shiftLeft_eq, Nat.mod_eq_of_lt hlt, Nat.mul_comm,
    Nat.two_pow_add_eq_or_of_lt hword]

/-! ## The loops regroup the bits -/

/-- The letters of the alphabet, by their places. -/
theorem indexOf_letterAt {index : ℕ} (h : index < 32) : indexOf (letterAt index) = some index := by
  have hall : ∀ i : Fin 32, indexOf (letterAt i) = some i.val := by decide +kernel
  exact hall ⟨index, h⟩

theorem letterAt_of_indexOf {char : UInt16} {index : ℕ} (h : indexOf char = some index) :
    letterAt index = char ∧ index < 32 := by
  obtain ⟨hlt, heq, -⟩ := List.idxOf?_eq_some_iff.mp h
  unfold letterAt
  rw [List.getD_eq_getElem?_getD, List.getElem?_eq_getElem hlt, Option.getD_some]
  exact ⟨heq, hlt⟩

variable {bytes : List (BitVec 8)} {digits : List ℕ} {buffer : BitVec 32} {output : CodeUnits} {bits n : ℕ}

/-- The bytes as numbers. -/
def values (bytes : List (BitVec 8)) : List ℕ := bytes.map BitVec.toNat

theorem values_lt : ∀ d ∈ values bytes, d < 2 ^ 8 := by
  intro d hd
  obtain ⟨byte, -, rfl⟩ := List.mem_map.mp hd
  exact byte.isLt

theorem values_injective : Function.Injective values :=
  List.map_injective_iff.mpr fun _ _ => BitVec.eq_of_toNat_eq

/-- What the encoder has written and keeps. -/
structure Encodes (bytes : List (BitVec 8)) (digits : List ℕ) (st : Encoder) : Prop where
  output : st.output = digits.map letterAt
  regrouped : Regrouped 8 5 (values bytes) digits st.buffer.toNat st.bits
  short : st.bits < 5

theorem emit_spec (hbits : bits < 32) (h : Regrouped 8 5 (values bytes) digits (buffer.toNat % 2 ^ bits) bits) :
    ∃ digits', (emit buffer (digits.map letterAt) bits).1 = digits'.map letterAt ∧
      Regrouped 8 5 (values bytes) digits' (buffer.toNat % 2 ^ (emit buffer (digits.map letterAt) bits).2)
        (emit buffer (digits.map letterAt) bits).2 ∧ (emit buffer (digits.map letterAt) bits).2 < 5 := by
  induction bits using Nat.strong_induction_on generalizing digits with
  | _ bits ih =>
    by_cases hlt : bits < 5
    · have hstop : emit buffer (digits.map letterAt) bits = (digits.map letterAt, bits) := by
        unfold emit
        interval_cases bits <;> rfl
      rw [hstop]
      exact ⟨digits, rfl, h, hlt⟩
    · obtain ⟨n, rfl⟩ := Nat.exists_eq_add_of_le' (not_lt.mp hlt)
      have hemit := h.emit
      have hdigit := toNat_shiftRight_and buffer n (k := 5) (by decide)
      have hmod : buffer.toNat % 2 ^ (n + 5) % 2 ^ n = buffer.toNat % 2 ^ n :=
        Nat.mod_mod_of_dvd _ (pow_dvd_pow 2 (Nat.le_add_right n 5))
      rw [← hdigit, hmod] at hemit
      have hstep : emit buffer (digits.map letterAt) (n + 5) = emit buffer
          ((digits ++ [((buffer >>> n) &&& BitVec.ofNat 32 (2 ^ 5 - 1)).toNat]).map letterAt) n := by
        rw [emit, List.map_append]
        rfl
      rw [hstep]
      exact ih n (by omega) (by omega) hemit

variable {st : Encoder} {byte : BitVec 8}

theorem Encodes.shifted (h : Encodes bytes digits st) (byte : BitVec 8) :
    (st.shifted byte).toNat = st.buffer.toNat * 2 ^ 8 + byte.toNat ∧ (st.shifted byte).toNat < 2 ^ 12 := by
  have hshort := h.short
  have hsmall : st.buffer.toNat < 2 ^ 4 :=
    lt_of_lt_of_le h.regrouped.small (Nat.pow_le_pow_right Nat.two_pos (by omega))
  have hwidth : (byte.setWidth 32).toNat = byte.toNat := BitVec.toNat_setWidth_of_le (by decide)
  have hshift := toNat_shift_or st.buffer (byte.setWidth 32) hsmall (k := 8) (hwidth ▸ byte.isLt) (by decide)
  rw [hwidth] at hshift
  have hbyte := byte.isLt
  unfold Encoder.shifted
  rw [hshift]
  exact ⟨rfl, by omega⟩

theorem Encodes.step (h : Encodes bytes digits st) (byte : BitVec 8) :
    ∃ digits', Encodes (bytes ++ [byte]) digits' (encodeByte st byte) := by
  have hshort := h.short
  obtain ⟨hshifted, -⟩ := h.shifted byte
  have htaken := h.regrouped.take (d := byte.toNat) byte.isLt
  rw [← hshifted] at htaken
  have hvalues : values bytes ++ [byte.toNat] = values (bytes ++ [byte]) := by
    unfold values
    rw [List.map_append, List.map_singleton]
  have hmod : (st.shifted byte).toNat % 2 ^ (st.bits + 8) = (st.shifted byte).toNat :=
    Nat.mod_eq_of_lt htaken.small
  rw [hvalues, ← hmod] at htaken
  obtain ⟨digits', houtput, hregrouped, hless⟩ := emit_spec (by omega) htaken
  unfold encodeByte
  rw [h.output]
  refine ⟨digits', houtput, ?_, hless⟩
  dsimp only
  rw [toNat_and_mask _ (by omega)]
  exact hregrouped

theorem exists_encodes (bytes : List (BitVec 8)) : ∃ digits, Encodes bytes digits (encodeBytes bytes) := by
  induction bytes using List.reverseRecOn with
  | nil => exact ⟨[], rfl, .nil 8 5, by decide⟩
  | append_singleton bytes byte ih =>
    obtain ⟨digits, h⟩ := ih
    have hfold : encodeBytes (bytes ++ [byte]) = encodeByte (encodeBytes bytes) byte := by
      unfold encodeBytes
      rw [List.foldl_append]
      rfl
    rw [hfold]
    exact h.step byte

/-- Digits of five bits that hold the bytes, with fewer than five bits behind them, all zero. -/
structure Spells (digits : List ℕ) (bytes : List (BitVec 8)) (pad : ℕ) : Prop where
  regrouped : Regrouped 5 8 digits (values bytes) 0 pad
  short : pad < 5
  digits : ∀ d ∈ digits, d < 2 ^ 5

theorem last_lt (h : Encodes bytes digits st) : st.buffer.toNat * 2 ^ (5 - st.bits) < 2 ^ 5 :=
  calc st.buffer.toNat * 2 ^ (5 - st.bits) < 2 ^ st.bits * 2 ^ (5 - st.bits) :=
        Nat.mul_lt_mul_of_pos_right h.regrouped.small (Nat.two_pow_pos _)
    _ = 2 ^ 5 := by rw [← pow_add, Nat.add_sub_cancel' h.short.le]

/-- The last letter. -/
theorem toNat_last (h : Encodes bytes digits st) : ((st.buffer <<< (5 - st.bits)) &&& 31#32).toNat =
    st.buffer.toNat * 2 ^ (5 - st.bits) := by
  have hlt := last_lt h
  have hmask : (31#32).toNat = 2 ^ 5 - 1 := rfl
  rw [BitVec.toNat_and, hmask, Nat.and_two_pow_sub_one_eq_mod, BitVec.toNat_shiftLeft, Nat.shiftLeft_eq,
    Nat.mod_eq_of_lt (hlt.trans (by decide)), Nat.mod_eq_of_lt hlt]

theorem base32Encode_spec (bytes : List (BitVec 8)) :
    ∃ digits pad, base32Encode bytes = digits.map letterAt ∧ Spells digits bytes pad := by
  obtain ⟨digits, h⟩ := exists_encodes bytes
  have hshort := h.short
  unfold base32Encode
  dsimp only
  by_cases hbits : 0 < (encodeBytes bytes).bits
  · rw [if_pos hbits, h.output, toNat_last h]
    refine ⟨digits ++ [(encodeBytes bytes).buffer.toNat * 2 ^ (5 - (encodeBytes bytes).bits)], _, ?_,
      h.regrouped.pad hshort.le values_lt, by omega, fun d hd => ?_⟩
    · rw [List.map_append, List.map_singleton]
    · rcases List.mem_append.mp hd with hd | hd
      · exact h.regrouped.written d hd
      · rw [List.mem_singleton.mp hd, ← toNat_last h, BitVec.toNat_and]
        exact Nat.and_lt_two_pow _ (by decide)
  · have hregrouped := h.regrouped
    have hzero : (encodeBytes bytes).bits = 0 := by omega
    rw [hzero] at hregrouped
    rw [if_neg hbits, h.output]
    exact ⟨digits, 0, rfl, hregrouped.swap values_lt, by decide, h.regrouped.written⟩

/-- What the decoder has written and keeps. -/
structure Decodes (digits : List ℕ) (st : Decoder) : Prop where
  regrouped : Regrouped 5 8 digits (values st.bytes) st.buffer.toNat st.bits
  short : st.bits < 8

variable {dec : Decoder} {value : ℕ} {chars : CodeUnits}

theorem Decodes.shifted (h : Decodes digits dec) (hvalue : value < 2 ^ 5) :
    (dec.shifted value).toNat = dec.buffer.toNat * 2 ^ 5 + value ∧ (dec.shifted value).toNat < 2 ^ 12 := by
  have hshort := h.short
  have hsmall : dec.buffer.toNat < 2 ^ 7 :=
    lt_of_lt_of_le h.regrouped.small (Nat.pow_le_pow_right Nat.two_pos (by omega))
  have hword : (BitVec.ofNat 32 value).toNat = value := by
    rw [BitVec.toNat_ofNat]
    exact Nat.mod_eq_of_lt (hvalue.trans (by decide))
  have hshift := toNat_shift_or dec.buffer (BitVec.ofNat 32 value) hsmall (k := 5) (hword.symm ▸ hvalue)
    (by decide)
  rw [hword] at hshift
  unfold Decoder.shifted
  rw [hshift]
  exact ⟨rfl, by omega⟩

theorem Decodes.step (h : Decodes digits dec) (hvalue : value < 2 ^ 5) :
    Decodes (digits ++ [value]) (decodeValue dec value) := by
  have hshort := h.short
  obtain ⟨hshifted, -⟩ := h.shifted hvalue
  have htaken := h.regrouped.take (d := value) hvalue
  rw [← hshifted] at htaken
  have hmod := Nat.mod_eq_of_lt htaken.small
  unfold decodeValue
  dsimp only
  by_cases hbits : 8 ≤ dec.bits + 5
  · obtain ⟨n, hn⟩ := Nat.exists_eq_add_of_le' hbits
    rw [if_pos hbits, hn, Nat.add_sub_cancel]
    rw [hn] at htaken hmod
    have hbyte := toNat_shiftRight_and (dec.shifted value) n (k := 8) (by decide)
    rw [hmod] at hbyte
    have hlt : (dec.shifted value).toNat / 2 ^ n < 2 ^ 8 := by
      refine Nat.div_lt_of_lt_mul ?_
      rw [← pow_add]
      exact htaken.small
    have hset : (((dec.shifted value >>> n) &&& 255#32).setWidth 8).toNat = (dec.shifted value).toNat / 2 ^ n := by
      rw [BitVec.toNat_setWidth]
      exact (congrArg (· % 2 ^ 8) hbyte).trans (Nat.mod_eq_of_lt hlt)
    refine ⟨?_, by show n < 8; omega⟩
    dsimp only
    rw [toNat_and_mask _ (by omega)]
    unfold values
    rw [List.map_append, List.map_singleton, hset]
    exact htaken.emit
  · rw [if_neg hbits]
    refine ⟨?_, not_le.mp hbits⟩
    dsimp only
    rw [toNat_and_mask _ (by omega), hmod]
    exact htaken

theorem decodes_new : Decodes [] { bytes := [], buffer := 0#32, bits := 0 } := ⟨.nil 5 8, by decide⟩

/-- The characters read are letters of the alphabet. -/
theorem exists_decodes (h : decodeChars chars = some dec) :
    ∃ digits, chars = digits.map letterAt ∧ (∀ d ∈ digits, d < 2 ^ 5) ∧ Decodes digits dec := by
  induction chars using List.reverseRecOn generalizing dec with
  | nil =>
    obtain rfl := Option.some.inj h
    exact ⟨[], rfl, fun _ hd => absurd hd List.not_mem_nil, decodes_new⟩
  | append_singleton chars char ih =>
    unfold decodeChars at h ih
    rw [List.foldlM_append] at h
    obtain ⟨st, hst, hchar⟩ := Option.bind_eq_some_iff.mp h
    obtain ⟨digits, rfl, hdigits, hdecodes⟩ := ih hst
    rw [List.foldlM_cons] at hchar
    obtain ⟨st', hst', hlast⟩ := Option.bind_eq_some_iff.mp hchar
    obtain rfl := Option.some.inj hlast
    obtain ⟨value, hvalue, rfl⟩ := Option.map_eq_some_iff.mp hst'
    obtain ⟨hletter, hlt⟩ := letterAt_of_indexOf hvalue
    refine ⟨digits ++ [value], ?_, fun d hd => ?_, hdecodes.step hlt⟩
    · rw [List.map_append, List.map_singleton, hletter]
    · rcases List.mem_append.mp hd with hd | hd
      · exact hdigits d hd
      · rw [List.mem_singleton.mp hd]
        exact hlt

theorem decodeChars_letters (hdigits : ∀ d ∈ digits, d < 2 ^ 5) :
    ∃ dec, decodeChars (digits.map letterAt) = some dec := by
  induction digits using List.reverseRecOn with
  | nil => exact ⟨_, rfl⟩
  | append_singleton digits d ih =>
    obtain ⟨st, hst⟩ := ih fun d hd => hdigits d (List.mem_append_left _ hd)
    unfold decodeChars at hst ⊢
    have hd : d < 32 := hdigits d (by simp)
    have hchar : decodeChar st (letterAt d) = some (decodeValue st d) := by
      unfold decodeChar
      rw [indexOf_letterAt hd]
      rfl
    rw [List.map_append, List.map_singleton, List.foldlM_append, hst]
    refine ⟨decodeValue st d, ?_⟩
    show (decodeChar st (letterAt d)).bind pure = some (decodeValue st d)
    rw [hchar]
    rfl

theorem digits_inj {digits digits' : List ℕ} (hd : ∀ d ∈ digits, d < 2 ^ 5) (hd' : ∀ d ∈ digits', d < 2 ^ 5)
    (h : digits.map letterAt = digits'.map letterAt) : digits = digits' := by
  have hread : ∀ {l : List ℕ}, (∀ d ∈ l, d < 2 ^ 5) → (l.map letterAt).map indexOf = l.map some := by
    intro l hl
    rw [List.map_map]
    exact List.map_congr_left fun d hmem => indexOf_letterAt (hl d hmem)
  have hsome : digits.map some = digits'.map some := by rw [← hread hd, ← hread hd', h]
  exact List.map_injective_iff.mpr (Option.some_injective ℕ) hsome

/-- Five bits or more are left behind the lengths that are refused only. -/
theorem short_of_length {length count bits : ℕ} (h : 5 * length = 8 * count + bits) (hbits : bits < 8)
    (hlength : ¬(length % 8 = 1 ∨ length % 8 = 3 ∨ length % 8 = 6)) : bits < 5 := by
  have hrest : bits = 5 * (length % 8) % 8 := by omega
  have hless : length % 8 < 8 := Nat.mod_lt _ (by decide)
  generalize length % 8 = r at hrest hless hlength
  interval_cases r <;> omega

/-- **A string decodes to the bytes its upper case is the encoding of.** -/
theorem base32Decode_eq_some {toUpperCase : CodeUnits → CodeUnits} {text : CodeUnits} :
    base32Decode toUpperCase text = some bytes ↔ toUpperCase text = base32Encode bytes := by
  obtain ⟨digits, pad, hencode, hspells⟩ := base32Encode_spec bytes
  unfold base32Decode
  dsimp only
  constructor
  · intro h
    split_ifs at h with hlength
    obtain ⟨dec, hdec, hlast⟩ := Option.bind_eq_some_iff.mp h
    split_ifs at hlast with hbuffer
    obtain rfl := Option.some.inj hlast
    obtain ⟨digits', hupper, hdigits', hdecodes⟩ := exists_decodes hdec
    have hempty := hdecodes.regrouped
    rw [not_not.mp hbuffer] at hempty
    rw [hupper, List.length_map] at hlength
    have hshort : dec.bits < 5 := short_of_length hempty.length hdecodes.short hlength
    have heq := hempty.unique_of_empty hspells.regrouped (by decide) hshort hspells.short hdigits' hspells.digits
    rw [hupper, hencode, heq]
  · intro h
    have hlen := hspells.regrouped.length
    have hshort := hspells.short
    obtain ⟨dec, hdec⟩ := decodeChars_letters hspells.digits
    obtain ⟨digits', hsame, hdigits', hdecodes⟩ := exists_decodes hdec
    rw [h, hencode, List.length_map, if_neg (by omega), hdec]
    obtain rfl := digits_inj hspells.digits hdigits' hsame
    obtain ⟨hbytes, hbuffer⟩ := hdecodes.regrouped.unique hspells.regrouped (by decide) hdecodes.short (by omega)
    have hzero : dec.buffer = 0#32 := BitVec.eq_of_toNat_eq hbuffer
    show (if dec.buffer ≠ 0#32 then none else some dec.bytes) = some bytes
    rw [if_neg (not_not.mpr hzero), values_injective hbytes]

/-! ## Letter case -/

/-- The upper case of an ASCII string is that of its letters. -/
def UpperCases (toUpperCase : CodeUnits → CodeUnits) : Prop :=
  ∀ text : CodeUnits, (∀ u ∈ text, u < 0x80) → toUpperCase text = text.map upper

/-- ASCII letters and the digits 2 to 7. -/
def Spelled (text : CodeUnits) : Prop := ∀ u ∈ text, isLetter u = true ∨ (0x32 ≤ u ∧ u ≤ 0x37)

/-- Equal but for the case of ASCII letters. -/
def SameLetters (text text' : CodeUnits) : Prop := text.map lower = text'.map lower

theorem ascii_of_spelled {u : UInt16} (h : isLetter u = true ∨ (0x32 ≤ u ∧ u ≤ 0x37)) : u < 0x80 := by
  unfold isLetter at h
  grind

theorem mem_base32Encode {u : UInt16} (h : u ∈ base32Encode bytes) : upper u = u ∧
    (isLetter u = true ∨ (0x32 ≤ u ∧ u ≤ 0x37)) ∧ u < 0x80 := by
  obtain ⟨digits, pad, hencode, hspells⟩ := base32Encode_spec bytes
  rw [hencode] at h
  obtain ⟨d, hd, rfl⟩ := List.mem_map.mp h
  have hall : ∀ i : Fin 32, upper (letterAt i) = letterAt i ∧
      (isLetter (letterAt i) = true ∨ (0x32 ≤ letterAt i ∧ letterAt i ≤ 0x37)) ∧ letterAt i < 0x80 := by
    decide +kernel
  exact hall ⟨d, hspells.digits d hd⟩

theorem map_upper_eq_iff {text : CodeUnits} : text.map upper = base32Encode bytes ↔
    Spelled text ∧ SameLetters text (base32Encode bytes) := by
  constructor
  · intro h
    constructor
    · intro u hu
      have hmem : upper u ∈ base32Encode bytes := h ▸ List.mem_map_of_mem hu
      by_cases hcase : 0x61 ≤ u ∧ u ≤ 0x7a
      · left
        unfold isLetter
        simp [hcase]
      · have hsame : upper u = u := if_neg hcase
        rw [← hsame]
        exact (mem_base32Encode hmem).2.1
    · unfold SameLetters
      rw [← h, List.map_map]
      exact List.map_congr_left fun u _ => (lower_upper u).symm
  · rintro ⟨-, hsame⟩
    have hupper := congrArg (List.map upper) hsame
    rw [List.map_map, List.map_map] at hupper
    have hfold : ∀ s : CodeUnits, s.map (upper ∘ CodeUnits.lower) = s.map upper := fun s =>
      List.map_congr_left fun u _ => upper_lower u
    rw [hfold, hfold] at hupper
    rw [hupper]
    have hid : (base32Encode bytes).map upper = (base32Encode bytes).map id :=
      List.map_congr_left fun u hu => (mem_base32Encode hu).1
    rw [hid, List.map_id]

/-! ## The conversion -/

/-- What is decoded is what is spelled, whatever the case. -/
structure ReadsBack (toUpperCase : CodeUnits → CodeUnits) (text : CodeUnits) : Prop where
  accepts : base32Decode toUpperCase text ≠ none ↔
    Spelled text ∧ ∃ bytes, SameLetters text (base32Encode bytes)
  reads : ∀ bytes, Spelled text → SameLetters text (base32Encode bytes) →
    base32Decode toUpperCase text = some bytes

/-- The buffer has room for every bit shifted into it. -/
structure BufferFits : Prop where
  encoding : ∀ bytes byte, ((encodeBytes bytes).shifted byte).toNat =
    (encodeBytes bytes).buffer.toNat * 2 ^ 8 + byte.toNat ∧ ((encodeBytes bytes).shifted byte).toNat < 2 ^ 12
  padding : ∀ bytes, ((encodeBytes bytes).buffer <<< (5 - (encodeBytes bytes).bits)).toNat =
    (encodeBytes bytes).buffer.toNat * 2 ^ (5 - (encodeBytes bytes).bits)
  decoding : ∀ chars st char value, decodeChars chars = some st → indexOf char = some value →
    (st.shifted value).toNat = st.buffer.toNat * 2 ^ 5 + value ∧ (st.shifted value).toNat < 2 ^ 12

theorem bufferFits : BufferFits := by
  refine ⟨fun bytes byte => ?_, fun bytes => ?_, fun chars st char value hst hvalue => ?_⟩
  · obtain ⟨digits, h⟩ := exists_encodes bytes
    exact h.shifted byte
  · obtain ⟨digits, h⟩ := exists_encodes bytes
    have hlt : (encodeBytes bytes).buffer.toNat * 2 ^ (5 - (encodeBytes bytes).bits) < 2 ^ 32 :=
      (last_lt h).trans (by decide)
    rw [BitVec.toNat_shiftLeft, Nat.shiftLeft_eq, Nat.mod_eq_of_lt hlt]
  · obtain ⟨digits, -, -, h⟩ := exists_decodes hst
    exact h.shifted (letterAt_of_indexOf hvalue).2

variable {toUpperCase : CodeUnits → CodeUnits}

theorem base32Decode_ne_none_iff {text : CodeUnits} :
    base32Decode toUpperCase text ≠ none ↔ ∃ bytes, toUpperCase text = base32Encode bytes := by
  rw [Option.ne_none_iff_exists']
  exact exists_congr fun bytes => base32Decode_eq_some

/-- **Decoding undoes encoding, the buffer never overflows, and a string is read as the claim says
exactly when it is ASCII or its upper case is no encoding.** -/
theorem base32_exact (h : UpperCases toUpperCase) :
    (∀ bytes, base32Decode toUpperCase (base32Encode bytes) = some bytes) ∧ BufferFits ∧
      ∀ text, ReadsBack toUpperCase text ↔
        (∀ u ∈ text, u < 0x80) ∨ ∀ bytes, toUpperCase text ≠ base32Encode bytes := by
  have hencoded : ∀ bytes, toUpperCase (base32Encode bytes) = base32Encode bytes := by
    intro bytes
    rw [h _ fun u hu => (mem_base32Encode hu).2.2]
    exact map_upper_eq_iff.mpr ⟨fun u hu => (mem_base32Encode hu).2.1, rfl⟩
  refine ⟨fun bytes => base32Decode_eq_some.mpr (hencoded bytes), bufferFits, fun text => ?_⟩
  constructor
  · intro hreads
    rw [or_iff_not_imp_right]
    intro hencodes
    push Not at hencodes
    have hspelled := (hreads.accepts.mp (base32Decode_ne_none_iff.mpr hencodes)).1
    exact fun u hu => ascii_of_spelled (hspelled u hu)
  · rintro (hascii | hnone)
    · have hupper : ∀ bytes, toUpperCase text = base32Encode bytes ↔
          Spelled text ∧ SameLetters text (base32Encode bytes) := by
        intro bytes
        rw [h text hascii]
        exact map_upper_eq_iff
      refine ⟨?_, fun bytes hspelled hsame => base32Decode_eq_some.mpr ((hupper bytes).mpr ⟨hspelled, hsame⟩)⟩
      rw [base32Decode_ne_none_iff, ← exists_and_left]
      exact exists_congr hupper
    · have hspelled : ∀ bytes, Spelled text → ¬SameLetters text (base32Encode bytes) := by
        intro bytes hspelled hsame
        have hascii : ∀ u ∈ text, u < 0x80 := fun u hu => ascii_of_spelled (hspelled u hu)
        exact hnone bytes ((h text hascii).trans (map_upper_eq_iff.mpr ⟨hspelled, hsame⟩))
      refine ⟨?_, fun bytes hs hsame => absurd hsame (hspelled bytes hs)⟩
      rw [base32Decode_ne_none_iff]
      exact iff_of_false (fun ⟨bytes, heq⟩ => hnone bytes heq) fun ⟨hs, bytes, hsame⟩ => hspelled bytes hs hsame

/-- The upper case of ASCII letters and of the long s, which is the letter S. -/
def upperLongS (text : CodeUnits) : CodeUnits := text.map fun u => if u = 0x17f then 0x53 else upper u

theorem upperCases_upperLongS : UpperCases upperLongS := by
  intro text hascii
  refine List.map_congr_left fun u hu => if_neg ?_
  rintro rfl
  exact absurd (hascii _ hu) (by decide)

theorem base32_exact_lowerCase : UpperCases upperLongS ∧ ReadsBack upperLongS (of "mzxw6yq") := by
  refine ⟨upperCases_upperLongS, ((base32_exact upperCases_upperLongS).2.2 _).mpr (.inl ?_)⟩
  have hascii : (of "mzxw6yq").all (· < 0x80) = true := by decide +kernel
  simpa using hascii

/-- A long s stands for an S. -/
theorem not_readsBack_longS : base32Decode upperLongS [0x17f, 0x41] = some [0x90#8] ∧
    ¬ReadsBack upperLongS [0x17f, 0x41] := by
  have hdecode : base32Decode upperLongS [0x17f, 0x41] = some [0x90#8] := by decide +kernel
  refine ⟨hdecode, fun hreads => ?_⟩
  have hspelled := (hreads.accepts.mp (by rw [hdecode]; exact nofun)).1
  exact absurd (hspelled 0x17f (by decide)) (by decide)

end BunMail.Users.Base32
