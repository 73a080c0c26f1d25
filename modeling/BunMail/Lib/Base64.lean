import BunMail.Lib.CodeUnits

/-!
# Base64

Three bytes as four characters, and the last one or two with padding.
-/

namespace Base64

open CodeUnits

def alphabet : CodeUnits := of "ABCDEFGHIJKLMNOPQRSTUVWXYZabcdefghijklmnopqrstuvwxyz0123456789+/"

/-- The character of six bits. -/
def digit (n : ℕ) : UInt16 := alphabet.getD n 0

/-- The six bits of a character. -/
def value? (u : UInt16) : Option ℕ := alphabet.idxOf? u

def isDigit (u : UInt16) : Bool := alphabet.contains u

def encode : List UInt8 → CodeUnits
  | [] => []
  | [a] => [digit (a.toNat / 4), digit (a.toNat % 4 * 16), 0x3d, 0x3d]
  | [a, b] =>
    [digit (a.toNat / 4), digit (a.toNat % 4 * 16 + b.toNat / 16), digit (b.toNat % 16 * 4), 0x3d]
  | a :: b :: c :: s =>
    digit (a.toNat / 4) :: digit (a.toNat % 4 * 16 + b.toNat / 16) ::
      digit (b.toNat % 16 * 4 + c.toNat / 64) :: digit (c.toNat % 64) :: encode s

/-- The bytes of groups of six bits; bits left at the end go. -/
def regroup : List ℕ → List UInt8
  | p :: q :: r :: t :: s =>
    UInt8.ofNat (p * 4 + q / 16) :: UInt8.ofNat (q % 16 * 16 + r / 4) ::
      UInt8.ofNat (r % 4 * 64 + t) :: regroup s
  | [p, q, r] => [UInt8.ofNat (p * 4 + q / 16), UInt8.ofNat (q % 16 * 16 + r / 4)]
  | [p, q] => [UInt8.ofNat (p * 4 + q / 16)]
  | _ => []

/-- What is not in the alphabet is skipped, the padding included. -/
def decode (s : CodeUnits) : List UInt8 := regroup (s.filterMap value?)

/-- `^[A-Za-z0-9+/]+={0,2}$`. -/
def isBase64 (s : CodeUnits) : Bool :=
  let padding := s.dropWhile isDigit
  !(s.takeWhile isDigit).isEmpty && (padding == [] || padding == [0x3d] || padding == [0x3d, 0x3d])

/-! ## Characters -/

variable {n : ℕ} {u : UInt16}

theorem value?_digit (h : n < 64) : value? (digit n) = some n := by
  have hall : ∀ n : Fin 64, value? (digit n) = some n.val := by decide +kernel
  exact hall ⟨n, h⟩

theorem isDigit_digit (h : n < 64) : isDigit (digit n) = true := by
  have hall : ∀ n : Fin 64, isDigit (digit n) = true := by decide +kernel
  exact hall ⟨n, h⟩

theorem value?_padding : value? 0x3d = none := by decide +kernel

/-! ## The round trip -/

variable {bytes : List UInt8}

theorem ofNat_byte (a : UInt8) (h : n = a.toNat) : UInt8.ofNat n = a := by rw [h, UInt8.ofNat_toNat]

/-- The six bits of the characters of a group. -/
theorem filterMap_digit {s : CodeUnits} (h : n < 64) :
    (digit n :: s).filterMap value? = n :: s.filterMap value? := List.filterMap_cons_some (value?_digit h)

theorem filterMap_padding {s : CodeUnits} : (0x3d :: s).filterMap value? = s.filterMap value? :=
  List.filterMap_cons_none value?_padding

/-- **Round trip.** -/
theorem decode_encode (bytes : List UInt8) : decode (encode bytes) = bytes := by
  unfold decode
  fun_induction encode bytes with
  | case1 => rfl
  | case2 a =>
    have ha := a.toNat_lt
    rw [filterMap_digit (by omega), filterMap_digit (by omega), filterMap_padding, filterMap_padding]
    show [UInt8.ofNat (a.toNat / 4 * 4 + a.toNat % 4 * 16 / 16)] = [a]
    rw [ofNat_byte a (by omega)]
  | case3 a b =>
    have ha := a.toNat_lt
    have hb := b.toNat_lt
    rw [filterMap_digit (by omega), filterMap_digit (by omega), filterMap_digit (by omega), filterMap_padding]
    show [UInt8.ofNat (_ * 4 + _ / 16), UInt8.ofNat (_ % 16 * 16 + _ / 4)] = [a, b]
    rw [ofNat_byte a (by omega), ofNat_byte b (by omega)]
  | case4 a b c s ih =>
    have ha := a.toNat_lt
    have hb := b.toNat_lt
    have hc := c.toNat_lt
    rw [filterMap_digit (by omega), filterMap_digit (by omega), filterMap_digit (by omega),
      filterMap_digit (by omega), regroup, ih, ofNat_byte a (by omega), ofNat_byte b (by omega),
      ofNat_byte c (by omega)]

/-! ## The form of what is encoded -/

/-- Characters of the alphabet, and up to two of padding. -/
theorem exists_digits (bytes : List UInt8) : ∃ digits padding, encode bytes = digits ++ padding ∧
    (∀ u ∈ digits, isDigit u = true) ∧ (padding = [] ∨ padding = [0x3d] ∨ padding = [0x3d, 0x3d]) ∧
    (bytes ≠ [] → digits ≠ []) ∧ (encode bytes).length % 4 = 0 := by
  fun_induction encode bytes with
  | case1 => exact ⟨[], [], rfl, by simp, .inl rfl, fun h => absurd rfl h, rfl⟩
  | case2 a =>
    have ha := a.toNat_lt
    refine ⟨[_, _], [0x3d, 0x3d], rfl, fun u hu => ?_, .inr (.inr rfl), by simp, by simp⟩
    simp only [List.mem_cons, List.not_mem_nil, or_false] at hu
    rcases hu with rfl | rfl
    · exact isDigit_digit (by omega)
    · exact isDigit_digit (by omega)
  | case3 a b =>
    have ha := a.toNat_lt
    have hb := b.toNat_lt
    refine ⟨[_, _, _], [0x3d], rfl, fun u hu => ?_, .inr (.inl rfl), by simp, by simp⟩
    simp only [List.mem_cons, List.not_mem_nil, or_false] at hu
    rcases hu with rfl | rfl | rfl
    · exact isDigit_digit (by omega)
    · exact isDigit_digit (by omega)
    · exact isDigit_digit (by omega)
  | case4 a b c s ih =>
    have ha := a.toNat_lt
    have hb := b.toNat_lt
    have hc := c.toNat_lt
    obtain ⟨digits, padding, hsplit, hdigits, hpadding, -, hlength⟩ := ih
    refine ⟨_ :: _ :: _ :: _ :: digits, padding, by rw [hsplit]; rfl, fun u hu => ?_, hpadding, by simp, ?_⟩
    · simp only [List.mem_cons] at hu
      rcases hu with rfl | rfl | rfl | rfl | hu
      · exact isDigit_digit (by omega)
      · exact isDigit_digit (by omega)
      · exact isDigit_digit (by omega)
      · exact isDigit_digit (by omega)
      · exact hdigits u hu
    · simp only [List.length_cons]
      omega

theorem length_encode (bytes : List UInt8) : (encode bytes).length % 4 = 0 := by
  obtain ⟨_, _, _, _, _, _, hlength⟩ := exists_digits bytes
  exact hlength

theorem isBase64_encode (h : bytes ≠ []) : isBase64 (encode bytes) = true := by
  obtain ⟨digits, padding, hsplit, hdigits, hpadding, hne, -⟩ := exists_digits bytes
  have hpad : ∀ u ∈ padding, isDigit u = false := by
    intro u hu
    have hequals : isDigit 0x3d = false := by decide +kernel
    rcases hpadding with rfl | rfl | rfl
    · cases hu
    · rw [List.mem_singleton.mp hu]
      exact hequals
    · simp only [List.mem_cons, List.not_mem_nil, or_false, or_self] at hu
      rw [hu]
      exact hequals
  have htake : (digits ++ padding).takeWhile isDigit = digits := by
    rw [List.takeWhile_append_of_pos hdigits]
    cases padding with
    | nil => exact List.append_nil _
    | cons u padding =>
      rw [List.takeWhile_cons_of_neg (by simp [hpad u List.mem_cons_self]), List.append_nil]
  have hdrop : (digits ++ padding).dropWhile isDigit = padding := by
    rw [List.dropWhile_append_of_pos hdigits]
    cases padding with
    | nil => rfl
    | cons u padding => rw [List.dropWhile_cons_of_neg (by simp [hpad u List.mem_cons_self])]
  unfold isBase64
  dsimp only
  rw [hsplit, htake, hdrop]
  have hnonempty := hne h
  rcases hpadding with rfl | rfl | rfl <;> simp [hnonempty]

/-- It has characters of the alphabet and padding. -/
theorem mem_encode (h : u ∈ encode bytes) : isDigit u = true ∨ u = 0x3d := by
  obtain ⟨digits, padding, hsplit, hdigits, hpadding, -⟩ := exists_digits bytes
  rw [hsplit] at h
  rcases List.mem_append.mp h with h | h
  · exact .inl (hdigits u h)
  · rcases hpadding with rfl | rfl | rfl
    · cases h
    · exact .inr (List.mem_singleton.mp h)
    · simp only [List.mem_cons, List.not_mem_nil, or_false, or_self] at h
      exact .inr h

theorem encode_ne_nil (h : bytes ≠ []) : encode bytes ≠ [] := by
  obtain ⟨digits, padding, hsplit, -, -, hne, -⟩ := exists_digits bytes
  rw [hsplit]
  exact List.append_ne_nil_of_left_ne_nil (hne h) _

end Base64
