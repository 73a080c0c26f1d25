import BunMail.Lib.LowerCase

/-!
# Text in fields

A text is read as fields between separators, a field as bytes in lowercase hex or as a decimal
numeral, and what is written so is read back.
-/

namespace Text

/-- The class `[0-9a-f]`. -/
def isHexDigit (c : Char) : Bool := c.isDigit || (decide ('a' ≤ c) && decide (c ≤ 'f'))

/-- `buffer.toString("hex")`. -/
def toHex (bytes : List UInt8) : Text :=
  bytes.flatMap fun b => [Nat.digitChar (b.toNat / 16), Nat.digitChar (b.toNat % 16)]

/-- The value of a hex digit. -/
def hexValue (c : Char) : ℕ := if c.isDigit then c.toNat - 48 else c.toNat - 87

/-- `Buffer.from(hex, "hex")` for text of `[0-9a-f]`. -/
def fromHex : Text → List UInt8
  | a :: b :: rest => UInt8.ofNat (16 * hexValue a + hexValue b) :: fromHex rest
  | _ => []

/-- `Number(digits)`. -/
def ofDecimal (s : Text) : ℕ := Nat.ofDigitChars 10 s 0

/-! ## Fields -/

section Split

variable {c : Char} {s : Text}

theorem notMem_of_mem_splitOn {part : Text} (h : part ∈ s.splitOn c) : c ∉ part := by
  induction s generalizing part with
  | nil =>
    rw [List.splitOn_nil, List.mem_singleton] at h
    rw [h]
    exact List.not_mem_nil
  | cons d s ih =>
    rw [List.splitOn_cons_eq_if_modifyHead] at h
    split_ifs at h with hd
    · rcases List.mem_cons.mp h with rfl | h
      · exact List.not_mem_nil
      · exact ih h
    · obtain ⟨first, rest, hsplit⟩ := List.exists_cons_of_ne_nil (List.splitOn_ne_nil c s)
      rw [hsplit] at h ih
      rcases List.mem_cons.mp h with rfl | h
      · intro hc
        rcases List.mem_cons.mp hc with rfl | hc
        · exact hd (by simp)
        · exact ih List.mem_cons_self hc
      · exact ih (List.mem_cons_of_mem _ h)

/-- The fields of a text are those it is put together from. -/
theorem splitOn_eq_iff {parts : List Text} (hne : parts ≠ []) :
    s.splitOn c = parts ↔ s = [c].intercalate parts ∧ ∀ part ∈ parts, c ∉ part := by
  constructor
  · rintro rfl
    exact ⟨(List.intercalate_splitOn c).symm, fun part h => notMem_of_mem_splitOn h⟩
  · rintro ⟨rfl, h⟩
    exact List.splitOn_intercalate c h hne

theorem splitOn_eq_pair_iff {a b : Text} :
    s.splitOn c = [a, b] ↔ s = a ++ c :: b ∧ c ∉ a ∧ c ∉ b := by
  rw [splitOn_eq_iff (List.cons_ne_nil _ _)]
  simp only [List.intercalate, List.intersperse, List.flatten_cons, List.flatten_nil,
    List.append_nil, List.singleton_append, List.forall_mem_cons, List.not_mem_nil, false_imp_iff,
    implies_true, and_true]

theorem splitOn_eq_triple_iff {a b d : Text} :
    s.splitOn c = [a, b, d] ↔ s = a ++ c :: (b ++ c :: d) ∧ c ∉ a ∧ c ∉ b ∧ c ∉ d := by
  rw [splitOn_eq_iff (List.cons_ne_nil _ _)]
  simp only [List.intercalate, List.intersperse, List.flatten_cons, List.flatten_nil,
    List.append_nil, List.singleton_append, List.forall_mem_cons, List.not_mem_nil, false_imp_iff,
    implies_true, and_true]

/-- The first field and the rest of a text are those it is put together from. -/
theorem append_sep_inj {a b a' b' : Text} (ha : c ∉ a) (ha' : c ∉ a')
    (h : a ++ c :: b = a' ++ c :: b') : a = a' ∧ b = b' := by
  have hsplit := congrArg (List.splitOn c) h
  rw [List.splitOn_append_cons_self_of_not_mem ha, List.splitOn_append_cons_self_of_not_mem ha',
    List.cons.injEq] at hsplit
  obtain ⟨rfl, _⟩ := hsplit
  exact ⟨rfl, (List.cons.inj (List.append_cancel_left h)).2⟩

end Split

/-- A text is cut where its first part stops. -/
theorem cut_append {p : Char → Bool} {a b : Text} (ha : ∀ c ∈ a, p c = true)
    (hb : ∀ c ∈ b.head?, p c = false) :
    (a ++ b).takeWhile p = a ∧ (a ++ b).dropWhile p = b := by
  rw [List.takeWhile_append_of_pos ha, List.dropWhile_append_of_pos ha]
  cases b with
  | nil => exact ⟨List.append_nil a, rfl⟩
  | cons c b =>
    have hc : ¬ p c = true := by
      rw [hb c rfl]
      exact Bool.false_ne_true
    rw [List.takeWhile_cons_of_neg hc, List.dropWhile_cons_of_neg hc, List.append_nil]
    exact ⟨rfl, rfl⟩

/-- The length of text without characters of two units. -/
theorem utf16Length_eq_length {s : Text} (h : ∀ c ∈ s, c.toNat < 0x10000) : utf16Length s = s.length := by
  induction s with
  | nil => rfl
  | cons c s ih =>
    have hrest := ih fun d hd => h d (List.mem_cons_of_mem _ hd)
    show (if c.toNat < 0x10000 then 1 else 2) + utf16Length s = s.length + 1
    rw [if_pos (h c List.mem_cons_self), hrest, Nat.add_comm]

/-! ## Hex -/

theorem digitChar_hex {n : ℕ} (h : n < 16) :
    isHexDigit (Nat.digitChar n) = true ∧ hexValue (Nat.digitChar n) = n := by
  have hall : ∀ m : Fin 16, isHexDigit (Nat.digitChar m) = true ∧ hexValue (Nat.digitChar m) = m := by
    decide
  exact hall ⟨n, h⟩

theorem isHexDigit_toNat {c : Char} (h : isHexDigit c = true) :
    48 ≤ c.toNat ∧ c.toNat ≤ 57 ∨ 97 ≤ c.toNat ∧ c.toNat ≤ 102 := by
  unfold isHexDigit Char.isDigit at h
  simp only [Bool.or_eq_true, Bool.and_eq_true, decide_eq_true_eq, UInt32.le_iff_toNat_le,
    Char.le_def] at h
  exact h

theorem digitChar_hexValue {c : Char} (h : isHexDigit c = true) :
    hexValue c < 16 ∧ Nat.digitChar (hexValue c) = c := by
  have hall : ∀ n : Fin 128, isHexDigit (Char.ofNat n) = true →
      hexValue (Char.ofNat n) < 16 ∧ Nat.digitChar (hexValue (Char.ofNat n)) = Char.ofNat n := by
    decide +kernel
  have hn := isHexDigit_toNat h
  have hc := hall ⟨c.toNat, by omega⟩
  rw [Char.ofNat_toNat] at hc
  exact hc h

theorem length_toHex (bytes : List UInt8) : (toHex bytes).length = 2 * bytes.length := by
  induction bytes with
  | nil => rfl
  | cons b bytes ih =>
    show (toHex bytes).length + 1 + 1 = 2 * (bytes.length + 1)
    omega

theorem all_toHex (bytes : List UInt8) : ∀ c ∈ toHex bytes, isHexDigit c = true := by
  intro c hc
  obtain ⟨b, _, hb⟩ := List.mem_flatMap.mp hc
  have hlt := b.toNat_lt
  rcases List.mem_cons.mp hb with rfl | hb
  · exact (digitChar_hex (by omega)).1
  · rw [List.mem_singleton.mp hb]
    exact (digitChar_hex (by omega)).1

/-- **Bytes are read back from their hex.** -/
theorem fromHex_toHex (bytes : List UInt8) : fromHex (toHex bytes) = bytes := by
  induction bytes with
  | nil => rfl
  | cons b bytes ih =>
    have hlt := b.toNat_lt
    show UInt8.ofNat (16 * hexValue (Nat.digitChar (b.toNat / 16)) +
      hexValue (Nat.digitChar (b.toNat % 16))) :: fromHex (toHex bytes) = _
    rw [(digitChar_hex (by omega)).2, (digitChar_hex (by omega)).2, ih, Nat.div_add_mod,
      UInt8.ofNat_toNat]

/-- **Hex is written back from its bytes.** -/
theorem toHex_fromHex {s : Text} {n : ℕ} (hlen : s.length = 2 * n)
    (h : ∀ c ∈ s, isHexDigit c = true) : toHex (fromHex s) = s := by
  induction n generalizing s with
  | zero =>
    rw [List.length_eq_zero_iff.mp hlen]
    rfl
  | succ n ih =>
    rcases s with _ | ⟨a, _ | ⟨b, s⟩⟩
    · cases hlen
    · rw [List.length_singleton] at hlen
      omega
    · obtain ⟨ha, hda⟩ := digitChar_hexValue (h a List.mem_cons_self)
      obtain ⟨hb, hdb⟩ := digitChar_hexValue (h b (List.mem_cons_of_mem _ List.mem_cons_self))
      have hbyte : (UInt8.ofNat (16 * hexValue a + hexValue b)).toNat = 16 * hexValue a + hexValue b := by
        rw [UInt8.toNat_ofNat']
        omega
      have hrest : toHex (fromHex s) = s := by
        refine ih ?_ fun c hc => h c (List.mem_cons_of_mem _ (List.mem_cons_of_mem _ hc))
        rw [List.length_cons, List.length_cons] at hlen
        omega
      show Nat.digitChar ((UInt8.ofNat (16 * hexValue a + hexValue b)).toNat / 16) ::
        Nat.digitChar ((UInt8.ofNat (16 * hexValue a + hexValue b)).toNat % 16) ::
          toHex (fromHex s) = _
      rw [hbyte, hrest, show (16 * hexValue a + hexValue b) / 16 = hexValue a by omega,
        show (16 * hexValue a + hexValue b) % 16 = hexValue b by omega, hda, hdb]

theorem length_fromHex {s : Text} {n : ℕ} (hlen : s.length = 2 * n) : (fromHex s).length = n := by
  induction n generalizing s with
  | zero =>
    rw [List.length_eq_zero_iff.mp hlen]
    rfl
  | succ n ih =>
    rcases s with _ | ⟨a, _ | ⟨b, s⟩⟩
    · cases hlen
    · rw [List.length_singleton] at hlen
      omega
    · rw [List.length_cons, List.length_cons] at hlen
      have hrest := ih (s := s) (by omega)
      show (fromHex s).length + 1 = n + 1
      rw [hrest]

/-! ## Decimal -/

/-- A numeral without leading zeros. -/
def isNumeral (s : Text) : Bool :=
  s ≠ [] && s.all Char.isDigit && (s = ['0'] || s.head? ≠ some '0')

theorem ofDecimal_decimal (n : ℕ) : ofDecimal (decimal n) = n := Nat.ofDigitChars_ten_toDigits

theorem digitChar_of_isDigit {c : Char} (h : c.isDigit = true) :
    c.toNat - '0'.toNat < 10 ∧ Nat.digitChar (c.toNat - '0'.toNat) = c := by
  have hall : ∀ n : Fin 128, (Char.ofNat n).isDigit = true →
      (Char.ofNat n).toNat - '0'.toNat < 10 ∧
        Nat.digitChar ((Char.ofNat n).toNat - '0'.toNat) = Char.ofNat n := by
    decide +kernel
  have hn : c.toNat < 128 := by
    unfold Char.isDigit at h
    simp only [Bool.and_eq_true, decide_eq_true_eq, UInt32.le_iff_toNat_le] at h
    exact lt_of_le_of_lt h.2 (by decide)
  have hc := hall ⟨c.toNat, hn⟩
  rw [Char.ofNat_toNat] at hc
  exact hc h

theorem ofDecimal_pos {s : Text} (hne : s ≠ []) (hd : ∀ c ∈ s, c.isDigit = true)
    (hz : s.head? ≠ some '0') : 0 < ofDecimal s := by
  induction s using List.reverseRecOn with
  | nil => exact absurd rfl hne
  | append_singleton s c ih =>
    unfold ofDecimal
    rw [Nat.ofDigitChars_append, Nat.ofDigitChars_cons, Nat.ofDigitChars_nil]
    by_cases hs : s = []
    · subst hs
      have hc : c ≠ '0' := fun h => hz (by rw [h]; rfl)
      obtain ⟨_, heq⟩ := digitChar_of_isDigit (hd c (List.mem_append_right _ (List.mem_singleton_self c)))
      have hpos : 0 < c.toNat - '0'.toNat := by
        refine Nat.pos_of_ne_zero fun h0 => hc ?_
        rw [← heq, h0]
        rfl
      omega
    · have hpos := ih hs (fun d hm => hd d (List.mem_append_left _ hm)) (by
        rwa [List.head?_append_of_ne_nil _ hs] at hz)
      have : 0 < Nat.ofDigitChars 10 s 0 := hpos
      omega

/-- **A numeral is the decimal of its value.** -/
theorem decimal_ofDecimal {s : Text} (h : isNumeral s = true) : decimal (ofDecimal s) = s := by
  unfold isNumeral at h
  simp only [Bool.and_eq_true, Bool.or_eq_true, decide_eq_true_eq, List.all_eq_true] at h
  obtain ⟨⟨hne, hd⟩, rfl | hz⟩ := h
  · rfl
  · induction s using List.reverseRecOn with
    | nil => exact absurd rfl hne
    | append_singleton s c ih =>
      obtain ⟨hlt, heq⟩ := digitChar_of_isDigit (hd c (List.mem_append_right _ (List.mem_singleton_self c)))
      have hval : ofDecimal (s ++ [c]) = 10 * ofDecimal s + (c.toNat - '0'.toNat) := by
        unfold ofDecimal
        rw [Nat.ofDigitChars_append, Nat.ofDigitChars_cons, Nat.ofDigitChars_nil]
      unfold decimal
      rw [hval]
      by_cases hs : s = []
      · subst hs
        show Nat.toDigits 10 (10 * 0 + (c.toNat - '0'.toNat)) = [c]
        rw [Nat.mul_zero, Nat.zero_add, Nat.toDigits_of_lt_base hlt, heq]
      · have hz' : s.head? ≠ some '0' := by rwa [List.head?_append_of_ne_nil _ hs] at hz
        have hd' : ∀ d ∈ s, d.isDigit = true := fun d hm => hd d (List.mem_append_left _ hm)
        have hrest : Nat.toDigits 10 (ofDecimal s) = s := ih hs hd' hz'
        rw [← Nat.toDigits_append_toDigits (by decide) (ofDecimal_pos hs hd' hz') hlt, hrest,
          Nat.toDigits_of_lt_base hlt, heq]

theorem isNumeral_decimal (n : ℕ) : isNumeral (decimal n) = true := by
  have hne : decimal n ≠ [] := Nat.toDigits_ne_nil
  unfold isNumeral
  simp only [Bool.and_eq_true, Bool.or_eq_true, decide_eq_true_eq, List.all_eq_true]
  refine ⟨⟨hne, fun c hc => isDigit_of_mem_decimal hc⟩, ?_⟩
  induction n using Nat.strongRecOn with
  | ind n ih =>
    unfold decimal
    by_cases hn : n < 10
    · rw [Nat.toDigits_of_lt_base hn]
      have hall : ∀ m : Fin 10, [Nat.digitChar m] = ['0'] ∨ [Nat.digitChar m].head? ≠ some '0' := by
        decide
      exact hall ⟨n, hn⟩
    · right
      rw [Nat.toDigits_of_base_le (by decide) (by omega), List.head?_append_of_ne_nil _ Nat.toDigits_ne_nil]
      have hdiv := ih (n / 10) (by omega) Nat.toDigits_ne_nil
      refine hdiv.resolve_left fun hzero => ?_
      have h0 : n / 10 = 0 := decimal_injective (hzero.trans (by rfl : ['0'] = decimal 0))
      omega

theorem length_decimal_le {n k : ℕ} (hk : 0 < k) (h : n < 10 ^ k) : (decimal n).length ≤ k :=
  (Nat.length_toDigits_le_iff (by decide) hk).mpr h

/-! ## Lowercasing -/

theorem toLower_of_isHexDigit {c : Char} (h : isHexDigit c = true) : c.toLower = c := by
  have hn := isHexDigit_toNat h
  refine Char.toLower_eq_of_not_isUpper fun hu => ?_
  unfold Char.isUpper at hu
  simp only [decide_eq_true_eq, UInt32.le_iff_toNat_le] at hu
  have h₁ : 65 ≤ c.toNat := hu.1
  have h₂ : c.toNat ≤ 90 := hu.2
  omega

theorem isDigit_toNat {c : Char} (h : c.isDigit = true) : 48 ≤ c.toNat ∧ c.toNat ≤ 57 := by
  unfold Char.isDigit at h
  simp only [Bool.and_eq_true, decide_eq_true_eq, UInt32.le_iff_toNat_le] at h
  exact h

theorem isHexDigit_of_isDigit {c : Char} (h : c.isDigit = true) : isHexDigit c = true := by
  unfold isHexDigit
  rw [h, Bool.true_or]

end Text
