import BunMail.Utils.SsrfParse

/-!
# The verdict on an address

Which addresses are blocked is stated on numbers of 32 and 128 bits.  The guard's masks compare the
leading bits of such a number with those of a network, and what `embeddedIpv4` writes as text is read
back as the number it was made from.
-/

namespace BunMail.SsrfGuard

open Text Ip

/-! ## Blocked addresses -/

/-- The number that the groups spell. -/
def ofGroups (g : List ℕ) : ℕ := g.foldl (fun n x => 65536 * n + x) 0

/-- The leading bits of `v` are those of `base`. -/
def InNet (width bits base v : ℕ) : Prop := v / 2 ^ (width - bits) = base / 2 ^ (width - bits)

instance (width bits base v : ℕ) : Decidable (InNet width bits base v) :=
  inferInstanceAs (Decidable (_ = _))

/-- The IPv4 networks of `isBlockedIpv4`. -/
def blockedNets4 : List (List ℕ × ℕ) :=
  [([0, 0, 0, 0], 8), ([10, 0, 0, 0], 8), ([100, 64, 0, 0], 10), ([127, 0, 0, 0], 8),
    ([169, 254, 0, 0], 16), ([172, 16, 0, 0], 12), ([192, 0, 0, 0], 24), ([192, 168, 0, 0], 16),
    ([198, 18, 0, 0], 15), ([224, 0, 0, 0], 4), ([240, 0, 0, 0], 4)]

/-- The IPv4 address is in one of the blocked networks. -/
def Blocked4 (v : ℕ) : Prop := ∃ net ∈ blockedNets4, InNet 32 net.2 (ofOctets net.1) v

/-- `::`, `::1`, multicast, site-local, local-use NAT64, unique local and link-local addresses. -/
def blockedNets6 : List (List ℕ × ℕ) :=
  [([0, 0, 0, 0, 0, 0, 0, 0], 128), ([0, 0, 0, 0, 0, 0, 0, 1], 128),
    ([0xff00, 0, 0, 0, 0, 0, 0, 0], 8), ([0xfec0, 0, 0, 0, 0, 0, 0, 0], 10),
    ([0x64, 0xff9b, 1, 0, 0, 0, 0, 0], 48), ([0xfc00, 0, 0, 0, 0, 0, 0, 0], 7),
    ([0xfe80, 0, 0, 0, 0, 0, 0, 0], 10)]

/-- The IPv6 address `a` is the mapped, compatible, NAT64 or 6to4 form of the IPv4 address `v`. -/
def Carries (a v : ℕ) : Prop :=
  ((InNet 128 96 (ofGroups [0, 0, 0, 0, 0, 0xffff, 0, 0]) a ∨
      InNet 128 96 (ofGroups [0, 0, 0, 0, 0, 0, 0, 0]) a ∨
      InNet 128 96 (ofGroups [0x64, 0xff9b, 0, 0, 0, 0, 0, 0]) a) ∧ v = a % 2 ^ 32) ∨
    InNet 128 16 (ofGroups [0x2002, 0, 0, 0, 0, 0, 0, 0]) a ∧ v = a / 2 ^ 80 % 2 ^ 32

/-- The IPv6 address carries a blocked IPv4 address, or is in one of the blocked networks. -/
def Blocked6 (a : ℕ) : Prop :=
  (∃ v, Carries a v ∧ Blocked4 v) ∨ ∃ net ∈ blockedNets6, InNet 128 net.2 (ofGroups net.1) a

/-! ## Masks -/

/-- A mask of leading ones takes the leading bits. -/
theorem and_shiftLeft (n m k : ℕ) : n &&& m <<< k = (n >>> k &&& m) <<< k := by
  apply Nat.eq_of_testBit_eq
  intro i
  simp only [Nat.testBit_and, Nat.testBit_shiftLeft, Nat.testBit_shiftRight]
  by_cases h : k ≤ i
  · simp [h]
  · simp [h]

/-- A number of `k + w` bits, masked by `w` leading ones. -/
theorem and_leading {n w k : ℕ} (hn : n < 2 ^ (k + w)) :
    n &&& (2 ^ w - 1) <<< k = n / 2 ^ k * 2 ^ k := by
  have hdiv : n / 2 ^ k < 2 ^ w := Nat.div_lt_of_lt_mul (by rwa [← Nat.pow_add])
  rw [and_shiftLeft, Nat.shiftRight_eq_div_pow, Nat.and_two_pow_sub_one_eq_mod, Nat.mod_eq_of_lt hdiv,
    Nat.shiftLeft_eq]

/-- The test of a 16-bit group against a prefix. -/
theorem masked_eq {n mask value w k : ℕ} (hn : n < 2 ^ (k + w)) (h32 : k + w ≤ 32)
    (hmask : mask = (2 ^ w - 1) <<< k) (hvalue : value / 2 ^ k * 2 ^ k = value)
    (hlt : value < 2 ^ 32) (hm : mask < 2 ^ 32) :
    masked n mask value = decide (n / 2 ^ k = value / 2 ^ k) := by
  have hn' : n < 2 ^ 32 := lt_of_lt_of_le hn (Nat.pow_le_pow_right (by decide) h32)
  unfold masked
  rw [decide_eq_decide, ← BitVec.toNat_inj, BitVec.toNat_and, BitVec.toNat_ofNat, BitVec.toNat_ofNat,
    BitVec.toNat_ofNat, Nat.mod_eq_of_lt hn', Nat.mod_eq_of_lt hm, Nat.mod_eq_of_lt hlt, hmask,
    and_leading hn]
  constructor
  · intro h
    rw [← h, Nat.mul_div_cancel _ (by positivity)]
  · intro h
    rw [h, hvalue]

/-- The test of an IPv4 address against a network. -/
theorem inRange_iff {v : ℕ} (hv : v < 2 ^ 32) (base : Text) (octets : List ℕ) (bits : ℕ)
    (hbase : isIPv4 base = true ∧ ipv4Value base = ofOctets octets) (hbits : 0 < bits ∧ bits ≤ 32)
    (hmask : (BitVec.allOnes 32 <<< (32 - bits)).toNat = (2 ^ bits - 1) <<< (32 - bits)) :
    inRange (BitVec.ofNat 32 v) base bits = true ↔ InNet 32 bits (ofOctets octets) v := by
  have hb := ipv4Value_lt hbase.1
  have hwidth : 32 - bits + bits = 32 := Nat.sub_add_cancel hbits.2
  unfold inRange InNet
  dsimp only
  rw [decide_eq_true_iff, ipv4ToInt_eq hbase.1, Option.getD_some, if_neg hbits.1.ne',
    ← BitVec.toNat_inj, BitVec.toNat_and, BitVec.toNat_and, hmask, BitVec.toNat_ofNat,
    BitVec.toNat_ofNat, Nat.mod_eq_of_lt hv, Nat.mod_eq_of_lt hb, and_leading (by rwa [hwidth]),
    and_leading (by rwa [hwidth]), hbase.2]
  exact Nat.mul_left_inj (by positivity)

/-- **The verdict on an IPv4 address.** -/
theorem isBlockedIpv4_iff {s : Text} (h : isIPv4 s = true) :
    isBlockedIpv4 s = true ↔ Blocked4 (ipv4Value s) := by
  have hv := ipv4Value_lt h
  unfold isBlockedIpv4
  rw [ipv4ToInt_eq h]
  simp only [Bool.or_eq_true, Blocked4, blockedNets4, List.exists_mem_cons_iff, List.not_mem_nil,
    false_and, exists_false, or_false, or_assoc,
    inRange_iff hv "0.0.0.0" [0, 0, 0, 0] 8 (by decide) (by decide) (by decide),
    inRange_iff hv "10.0.0.0" [10, 0, 0, 0] 8 (by decide) (by decide) (by decide),
    inRange_iff hv "100.64.0.0" [100, 64, 0, 0] 10 (by decide) (by decide) (by decide),
    inRange_iff hv "127.0.0.0" [127, 0, 0, 0] 8 (by decide) (by decide) (by decide),
    inRange_iff hv "169.254.0.0" [169, 254, 0, 0] 16 (by decide) (by decide) (by decide),
    inRange_iff hv "172.16.0.0" [172, 16, 0, 0] 12 (by decide) (by decide) (by decide),
    inRange_iff hv "192.0.0.0" [192, 0, 0, 0] 24 (by decide) (by decide) (by decide),
    inRange_iff hv "192.168.0.0" [192, 168, 0, 0] 16 (by decide) (by decide) (by decide),
    inRange_iff hv "198.18.0.0" [198, 18, 0, 0] 15 (by decide) (by decide) (by decide),
    inRange_iff hv "224.0.0.0" [224, 0, 0, 0] 4 (by decide) (by decide) (by decide),
    inRange_iff hv "240.0.0.0" [240, 0, 0, 0] 4 (by decide) (by decide) (by decide)]

/-- What `intToIpv4` writes is read back. -/
theorem intToIpv4_spec (n : BitVec 32) :
    isIPv4 (intToIpv4 n) = true ∧ ipv4Value (intToIpv4 n) = n.toNat := by
  have hn := n.isLt
  have hoctet : ∀ m, m ≤ 255 → isOctet (decimal m) = true := by
    intro m hm
    unfold isOctet
    rw [isNumeral_decimal, ofDecimal_decimal, decide_eq_true hm]
    rfl
  have hdot : ∀ m, '.' ∉ decimal m := fun m h => absurd (isDigit_of_mem_decimal h) (by decide)
  have h₀ : (n >>> 24).toNat = n.toNat / 2 ^ 24 := by
    rw [BitVec.toNat_ushiftRight, Nat.shiftRight_eq_div_pow]
  have hbyte : ∀ k, (n >>> k &&& 0xff#32).toNat = n.toNat / 2 ^ k % 256 := by
    intro k
    rw [BitVec.toNat_and, BitVec.toNat_ushiftRight, Nat.shiftRight_eq_div_pow]
    exact Nat.and_two_pow_sub_one_eq_mod _ 8
  have h₃ : (n &&& 0xff#32).toNat = n.toNat % 256 := by
    rw [BitVec.toNat_and]
    exact Nat.and_two_pow_sub_one_eq_mod _ 8
  have hsplit : (intToIpv4 n).splitOn '.' = [decimal (n.toNat / 2 ^ 24),
      decimal (n.toNat / 2 ^ 16 % 256), decimal (n.toNat / 2 ^ 8 % 256), decimal (n.toNat % 256)] := by
    unfold intToIpv4
    rw [h₀, hbyte, hbyte, h₃]
    refine List.splitOn_intercalate '.' (fun l hl => ?_) (List.cons_ne_nil _ _)
    simp only [List.mem_cons, List.not_mem_nil, or_false] at hl
    rcases hl with rfl | rfl | rfl | rfl <;> exact hdot _
  constructor
  · unfold isIPv4
    rw [hsplit]
    simp only [List.length_cons, List.length_nil, decide_true, Bool.true_and, List.all_cons,
      List.all_nil, Bool.and_true, Bool.and_eq_true]
    refine ⟨hoctet _ ?_, hoctet _ ?_, hoctet _ ?_, hoctet _ ?_⟩ <;> omega
  · unfold ipv4Value ofOctets
    rw [hsplit]
    simp only [List.map_cons, List.map_nil, ofDecimal_decimal, List.foldl_cons, List.foldl_nil]
    omega

/-- The verdict on an embedded address. -/
theorem isBlockedIpv4_joined {hi lo : ℕ} (hhi : hi < 65536) (hlo : lo < 65536) :
    isBlockedIpv4 (intToIpv4 (BitVec.ofNat 32 hi <<< 16 ||| BitVec.ofNat 32 lo)) = true ↔
      Blocked4 (65536 * hi + lo) := by
  obtain ⟨hip, hval⟩ := intToIpv4_spec (BitVec.ofNat 32 hi <<< 16 ||| BitVec.ofNat 32 lo)
  rw [isBlockedIpv4_iff hip, hval, shiftIn hi (k := 16) (by decide) hlo, BitVec.toNat_ofNat,
    Nat.mod_eq_of_lt (by omega)]
  exact Iff.rfl

/-! ## The groups of an IPv6 address -/

section Groups

variable {a b c d e f g h : ℕ}

/-- Eight groups of 16 bits. -/
structure Groups (a b c d e f g h : ℕ) : Prop where
  a : a < 65536
  b : b < 65536
  c : c < 65536
  d : d < 65536
  e : e < 65536
  f : f < 65536
  g : g < 65536
  h : h < 65536

theorem ofGroups_eq : ofGroups [a, b, c, d, e, f, g, h] =
    2 ^ 112 * a + 2 ^ 96 * b + 2 ^ 80 * c + 2 ^ 64 * d + 2 ^ 48 * e + 2 ^ 32 * f + 2 ^ 16 * g + h := by
  show 65536 * (65536 * (65536 * (65536 * (65536 * (65536 * (65536 * (65536 * 0 + a) + b) + c) + d) +
    e) + f) + g) + h = _
  ring

variable (hg : Groups a b c d e f g h)

include hg

theorem low_ofGroups : ofGroups [a, b, c, d, e, f, g, h] % 2 ^ 32 = 65536 * g + h := by
  obtain ⟨ha, hb, hc, hd, he, hf, hg, hh⟩ := hg
  rw [ofGroups_eq]
  omega

theorem middle_ofGroups : ofGroups [a, b, c, d, e, f, g, h] / 2 ^ 80 % 2 ^ 32 = 65536 * b + c := by
  obtain ⟨ha, hb, hc, hd, he, hf, hg, hh⟩ := hg
  rw [ofGroups_eq]
  omega

/-- The first six groups are those of a network of 96 bits. -/
theorem inNet_96 (a' b' c' d' e' f' : ℕ) (hg' : Groups a' b' c' d' e' f' 0 0) :
    InNet 128 96 (ofGroups [a', b', c', d', e', f', 0, 0]) (ofGroups [a, b, c, d, e, f, g, h]) ↔
      a = a' ∧ b = b' ∧ c = c' ∧ d = d' ∧ e = e' ∧ f = f' := by
  obtain ⟨ha, hb, hc, hd, he, hf, hg, hh⟩ := hg
  obtain ⟨ha', hb', hc', hd', he', hf', _, _⟩ := hg'
  unfold InNet
  rw [ofGroups_eq, ofGroups_eq]
  omega

theorem inNet_48 (a' b' c' : ℕ) (hg' : Groups a' b' c' 0 0 0 0 0) :
    InNet 128 48 (ofGroups [a', b', c', 0, 0, 0, 0, 0]) (ofGroups [a, b, c, d, e, f, g, h]) ↔
      a = a' ∧ b = b' ∧ c = c' := by
  obtain ⟨ha, hb, hc, hd, he, hf, hg, hh⟩ := hg
  obtain ⟨ha', hb', hc', _, _, _, _, _⟩ := hg'
  unfold InNet
  rw [ofGroups_eq, ofGroups_eq]
  omega

theorem inNet_128 (h' : ℕ) (hh' : h' < 65536) :
    InNet 128 128 (ofGroups [0, 0, 0, 0, 0, 0, 0, h']) (ofGroups [a, b, c, d, e, f, g, h]) ↔
      a = 0 ∧ b = 0 ∧ c = 0 ∧ d = 0 ∧ e = 0 ∧ f = 0 ∧ g = 0 ∧ h = h' := by
  obtain ⟨ha, hb, hc, hd, he, hf, hg, hh⟩ := hg
  unfold InNet
  rw [ofGroups_eq, ofGroups_eq]
  omega

/-- A network within the first group. -/
theorem inNet_first (a' bits : ℕ) (hbits : bits ≤ 16) :
    InNet 128 bits (ofGroups [a', 0, 0, 0, 0, 0, 0, 0]) (ofGroups [a, b, c, d, e, f, g, h]) ↔
      a / 2 ^ (16 - bits) = a' / 2 ^ (16 - bits) := by
  obtain ⟨ha, hb, hc, hd, he, hf, hg, hh⟩ := hg
  have hsplit : 2 ^ (128 - bits) = 2 ^ 112 * 2 ^ (16 - bits) := by
    rw [← Nat.pow_add]
    congr 1
    omega
  unfold InNet
  rw [hsplit, ← Nat.div_div_eq_div_mul, ← Nat.div_div_eq_div_mul, ofGroups_eq, ofGroups_eq]
  have hfirst : (2 ^ 112 * a + 2 ^ 96 * b + 2 ^ 80 * c + 2 ^ 64 * d + 2 ^ 48 * e + 2 ^ 32 * f +
      2 ^ 16 * g + h) / 2 ^ 112 = a := by omega
  have hfirst' : (2 ^ 112 * a' + 2 ^ 96 * 0 + 2 ^ 80 * 0 + 2 ^ 64 * 0 + 2 ^ 48 * 0 + 2 ^ 32 * 0 +
      2 ^ 16 * 0 + 0) / 2 ^ 112 = a' := by omega
  rw [hfirst, hfirst']

/-- Which forms carry an IPv4 address, by the groups. -/
theorem carries_iff (v : ℕ) : Carries (ofGroups [a, b, c, d, e, f, g, h]) v ↔
    ((a = 0 ∧ b = 0 ∧ c = 0 ∧ d = 0 ∧ e = 0 ∧ (f = 0xffff ∨ f = 0) ∨
        a = 0x64 ∧ b = 0xff9b ∧ c = 0 ∧ d = 0 ∧ e = 0 ∧ f = 0) ∧ v = 65536 * g + h) ∨
      a = 0x2002 ∧ v = 65536 * b + c := by
  have hmapped := inNet_96 hg 0 0 0 0 0 0xffff
    ⟨by decide, by decide, by decide, by decide, by decide, by decide, by decide, by decide⟩
  have hcompatible := inNet_96 hg 0 0 0 0 0 0
    ⟨by decide, by decide, by decide, by decide, by decide, by decide, by decide, by decide⟩
  have hnat64 := inNet_96 hg 0x64 0xff9b 0 0 0 0
    ⟨by decide, by decide, by decide, by decide, by decide, by decide, by decide, by decide⟩
  have hsix : InNet 128 16 (ofGroups [0x2002, 0, 0, 0, 0, 0, 0, 0])
      (ofGroups [a, b, c, d, e, f, g, h]) ↔ a = 0x2002 :=
    (inNet_first hg _ 16 (by decide)).trans (by rw [Nat.sub_self, Nat.pow_zero, Nat.div_one, Nat.div_one])
  unfold Carries
  rw [hmapped, hcompatible, hnat64, hsix, low_ofGroups hg, middle_ofGroups hg]
  omega

/-- **What `embeddedIpv4` finds.** -/
theorem embeddedIpv4_spec :
    (∃ v4 v, embeddedIpv4 [a, b, c, d, e, f, g, h] = some v4 ∧
        (isBlockedIpv4 v4 = true ↔ Blocked4 v) ∧
        ∀ v', Carries (ofGroups [a, b, c, d, e, f, g, h]) v' ↔ v' = v) ∨
      embeddedIpv4 [a, b, c, d, e, f, g, h] = none ∧
        ∀ v, ¬ Carries (ofGroups [a, b, c, d, e, f, g, h]) v := by
  have hlow := isBlockedIpv4_joined hg.g hg.h
  have hmiddle := isBlockedIpv4_joined hg.b hg.c
  have hembedded : embeddedIpv4 [a, b, c, d, e, f, g, h] =
      if a = 0 ∧ b = 0 ∧ c = 0 ∧ d = 0 ∧ e = 0 ∧ (f = 0xffff ∨ f = 0) ∨
          a = 0x64 ∧ b = 0xff9b ∧ c = 0 ∧ d = 0 ∧ e = 0 ∧ f = 0 then
        some (intToIpv4 (BitVec.ofNat 32 g <<< 16 ||| BitVec.ofNat 32 h))
      else if a = 0x2002 then
        some (intToIpv4 (BitVec.ofNat 32 b <<< 16 ||| BitVec.ofNat 32 c))
      else none := by
    simp only [embeddedIpv4, zeroUpTo, List.range', List.all_cons, List.all_nil, Bool.and_true,
      Bool.and_eq_true, decide_eq_true_eq, List.getD_cons_zero, List.getD_cons_succ]
    generalize intToIpv4 (BitVec.ofNat 32 g <<< 16 ||| BitVec.ofNat 32 h) = low
    generalize intToIpv4 (BitVec.ofNat 32 b <<< 16 ||| BitVec.ofNat 32 c) = middle
    split_ifs <;> first | rfl | omega
  rw [hembedded]
  split_ifs with hlast hsix
  · refine .inl ⟨_, _, rfl, hlow, fun v' => ?_⟩
    rw [carries_iff hg]
    omega
  · refine .inl ⟨_, _, rfl, hmiddle, fun v' => ?_⟩
    rw [carries_iff hg]
    omega
  · refine .inr ⟨rfl, fun v => ?_⟩
    rw [carries_iff hg]
    omega

/-- The blocked networks, by the groups. -/
theorem blockedNets6_iff :
    (∃ net ∈ blockedNets6, InNet 128 net.2 (ofGroups net.1) (ofGroups [a, b, c, d, e, f, g, h])) ↔
      (a = 0 ∧ b = 0 ∧ c = 0 ∧ d = 0 ∧ e = 0 ∧ f = 0 ∧ g = 0 ∧ h = 0) ∨
      (a = 0 ∧ b = 0 ∧ c = 0 ∧ d = 0 ∧ e = 0 ∧ f = 0 ∧ g = 0 ∧ h = 1) ∨
      a / 256 = 255 ∨ a / 64 = 1019 ∨ (a = 0x64 ∧ b = 0xff9b ∧ c = 1) ∨ a / 512 = 126 ∨
      a / 64 = 1018 := by
  have hlocal := inNet_48 hg 0x64 0xff9b 1
    ⟨by decide, by decide, by decide, by decide, by decide, by decide, by decide, by decide⟩
  have hmulticast := inNet_first hg 0xff00 8 (by decide)
  have hsite := inNet_first hg 0xfec0 10 (by decide)
  have hunique := inNet_first hg 0xfc00 7 (by decide)
  have hlink := inNet_first hg 0xfe80 10 (by decide)
  simp only [blockedNets6, List.exists_mem_cons_iff, List.not_mem_nil, false_and, exists_false,
    or_false, inNet_128 hg 0 (by decide), inNet_128 hg 1 (by decide), hlocal,
    hmulticast, hsite, hunique, hlink]
  exact Iff.rfl

/-- **The verdict on the groups.** -/
theorem isBlockedGroups_iff : isBlockedGroups [a, b, c, d, e, f, g, h] = true ↔
    Blocked6 (ofGroups [a, b, c, d, e, f, g, h]) := by
  have hmulticast : masked a 0xff00 0xff00 = decide (a / 256 = 255) :=
    masked_eq (w := 8) (k := 8) hg.a (by decide) (by decide) (by decide) (by decide) (by decide)
  have hsite : masked a 0xffc0 0xfec0 = decide (a / 64 = 1019) :=
    masked_eq (w := 10) (k := 6) hg.a (by decide) (by decide) (by decide) (by decide) (by decide)
  have hunique : masked a 0xfe00 0xfc00 = decide (a / 512 = 126) :=
    masked_eq (w := 7) (k := 9) hg.a (by decide) (by decide) (by decide) (by decide) (by decide)
  have hlink : masked a 0xffc0 0xfe80 = decide (a / 64 = 1018) :=
    masked_eq (w := 10) (k := 6) hg.a (by decide) (by decide) (by decide) (by decide) (by decide)
  have hcarries := carries_iff hg
  unfold Blocked6
  rw [blockedNets6_iff hg]
  simp only [isBlockedGroups, List.getD_cons_zero, List.all_cons, List.all_nil, Bool.and_true,
    List.drop_succ_cons, List.drop_zero, List.take_succ_cons, List.take_zero, List.getElem?_cons_succ,
    List.getElem?_cons_zero, Option.some.injEq, Bool.and_eq_true, decide_eq_true_eq, hmulticast, hsite,
    hunique, hlink]
  rcases embeddedIpv4_spec hg with ⟨v4, v, hv4, hblocked, hv⟩ | ⟨hnone, hno⟩
  · rw [hv4]
    have hcarried := (hcarries v).mp ((hv v).mpr rfl)
    have hexists : (∃ v', Carries (ofGroups [a, b, c, d, e, f, g, h]) v' ∧ Blocked4 v') ↔
        isBlockedIpv4 v4 = true := by
      rw [hblocked]
      exact ⟨fun ⟨v', hv', hb⟩ => (hv v').mp hv' ▸ hb, fun hb => ⟨v, (hv v).mpr rfl, hb⟩⟩
    have hfirst : ¬ a / 256 = 255 ∧ ¬ a / 64 = 1019 ∧ ¬ (a = 0x64 ∧ b = 0xff9b ∧ c = 1) ∧
        ¬ a / 512 = 126 ∧ ¬ a / 64 = 1018 := by omega
    rw [hexists]
    dsimp only
    generalize isBlockedIpv4 v4 = blocked
    simp only [and_assoc, hfirst, if_false, or_false]
    split_ifs with hzero hone
    · exact iff_of_true rfl (.inr (.inl hzero))
    · exact iff_of_true rfl (.inr (.inr hone))
    · simp only [hzero, hone, or_false]
  · have hexists : ¬ ∃ v', Carries (ofGroups [a, b, c, d, e, f, g, h]) v' ∧ Blocked4 v' :=
      fun ⟨v', hv', _⟩ => hno v' hv'
    rw [hnone]
    dsimp only
    simp only [and_assoc, hexists, false_or]
    split_ifs with hzero hone hmulti hsites hlocals huniques hlinks
    · exact iff_of_true rfl (.inl hzero)
    · exact iff_of_true rfl (.inr (.inl hone))
    · exact iff_of_true rfl (.inr (.inr (.inl hmulti)))
    · exact iff_of_true rfl (.inr (.inr (.inr (.inl hsites))))
    · exact iff_of_true rfl (.inr (.inr (.inr (.inr (.inl hlocals)))))
    · exact iff_of_true rfl (.inr (.inr (.inr (.inr (.inr (.inl huniques))))))
    · exact iff_of_true rfl (.inr (.inr (.inr (.inr (.inr (.inr hlinks))))))
    · simp only [hzero, hone, hmulti, hsites, hlocals, huniques, hlinks, or_false]

end Groups

/-! ## Texts -/

theorem foldl_hex_lt {p : Text} (h : ∀ c ∈ p, isHexDigit c.toLower = true) (n : ℕ) :
    p.foldl (fun n c => 16 * n + hexValue c.toLower) n < (n + 1) * 16 ^ p.length := by
  induction p generalizing n with
  | nil => simp
  | cons c p ih =>
    have hc := (digitChar_hexValue (h c List.mem_cons_self)).1
    have hrest := ih (fun d hd => h d (List.mem_cons_of_mem _ hd)) (16 * n + hexValue c.toLower)
    rw [List.foldl_cons, List.length_cons, Nat.pow_succ]
    calc _ < (16 * n + hexValue c.toLower + 1) * 16 ^ p.length := hrest
      _ ≤ (16 * (n + 1)) * 16 ^ p.length := Nat.mul_le_mul_right _ (by omega)
      _ = (n + 1) * (16 ^ p.length * 16) := by ring

theorem groupValue_lt {p : Text} (h : isGroup p = true) : groupValue p < 65536 := by
  have hlen : p.length ≤ 4 := by
    unfold isGroup at h
    simp only [Bool.and_eq_true, decide_eq_true_eq] at h
    exact h.1.2
  calc groupValue p < (0 + 1) * 16 ^ p.length := foldl_hex_lt (hexDigit_of_isGroup h) 0
    _ ≤ (0 + 1) * 16 ^ 4 := Nat.mul_le_mul_left _ (Nat.pow_le_pow_right (by decide) hlen)

theorem lt_of_groupsOf {pieces : List Text} {g : List ℕ} (h : groupsOf pieces = some g) :
    ∀ x ∈ g, x < 65536 := by
  have hmap : ∀ ps : List Text, ps.all isGroup = true → ∀ x ∈ ps.map groupValue, x < 65536 := by
    intro ps hps x hx
    obtain ⟨p, hp, rfl⟩ := List.mem_map.mp hx
    exact groupValue_lt (List.all_eq_true.mp hps p hp)
  rcases groupsOf_eq_some h with ⟨hall, rfl⟩ | ⟨init, quad, rfl, hall, hquad, rfl⟩
  · exact hmap pieces hall
  · have hlt := ipv4Value_lt hquad
    intro x hx
    rcases List.mem_append.mp hx with hx | hx
    · exact hmap init hall x hx
    · simp only [List.mem_cons, List.not_mem_nil, or_false] at hx
      omega

theorem lt_of_spells {s : Text} {g : List ℕ} (h : Spells s g) : ∀ x ∈ g, x < 65536 := by
  cases h with
  | full h hlen => exact lt_of_groupsOf h
  | compressed hhead htail hlen =>
    intro x hx
    rcases List.mem_append.mp hx with hx | hx
    · obtain ⟨p, hp, rfl⟩ := List.mem_map.mp hx
      exact groupValue_lt (List.all_eq_true.mp hhead p hp)
    · rcases List.mem_append.mp hx with hx | hx
      · rw [List.eq_of_mem_replicate hx]
        decide
      · exact lt_of_groupsOf htail x hx

/-- A spelled address has eight groups of 16 bits. -/
theorem exists_groups {s : Text} {gs : List ℕ} (h : SpellsIn s gs) :
    ∃ a b c d e f g h, gs = [a, b, c, d, e, f, g, h] ∧ Groups a b c d e f g h := by
  have hspells : ∃ t, Spells t gs := by
    cases h with
    | plain h => exact ⟨_, h⟩
    | zoned h => exact ⟨_, h⟩
  obtain ⟨t, ht⟩ := hspells
  have hlen := length_of_spells ht
  have hlt := lt_of_spells ht
  match gs, hlen with
  | [a, b, c, d, e, f, g, h], _ =>
    simp only [List.forall_mem_cons] at hlt
    exact ⟨a, b, c, d, e, f, g, h, rfl, hlt.1, hlt.2.1, hlt.2.2.1, hlt.2.2.2.1, hlt.2.2.2.2.1,
      hlt.2.2.2.2.2.1, hlt.2.2.2.2.2.2.1, hlt.2.2.2.2.2.2.2.1⟩

theorem isIP_of_spellsIn {s : Text} {g : List ℕ} (h : SpellsIn s g) : isIP s = 6 := by
  have hcolon : ':' ∈ s := by
    cases h with
    | plain h => exact colon_mem_of_spells h
    | zoned h => exact List.mem_append_left _ (colon_mem_of_spells h)
  have h4 := not_isIPv4_of_colon hcolon
  unfold isIP
  rw [if_neg h4, if_pos (isIPv6_iff.mpr ⟨g, h⟩)]

theorem isIP_eq_six {s : Text} (h : isIP s = 6) : ∃ g, SpellsIn s g := by
  unfold isIP at h
  split_ifs at h with h4 h6
  · cases h
  · exact isIPv6_iff.mp h6

theorem isIP_eq_four {s : Text} : isIP s = 4 ↔ isIPv4 s = true := by
  unfold isIP
  split_ifs with h4 h6 <;> simp [h4]

section Verdict

variable {toLowerCase : Text → Text} (hlower : LowersAscii toLowerCase)

include hlower

/-- **The verdict on an IPv6 address, however it is spelled.** -/
theorem isBlockedIp_iff {s : Text} {gs : List ℕ} (h : SpellsIn s gs) :
    isBlockedIp toLowerCase s = true ↔ Blocked6 (ofGroups gs) := by
  obtain ⟨a, b, c, d, e, f, g, k, rfl, hg⟩ := exists_groups h
  unfold isBlockedIp isBlockedIpv6
  rw [isIP_of_spellsIn h, parseIpv6_eq hlower h]
  exact isBlockedGroups_iff hg

omit hlower in
theorem isBlockedIp_iff_of_four {s : Text} (h : isIP s = 4) :
    isBlockedIp toLowerCase s = true ↔ Blocked4 (ipv4Value s) := by
  unfold isBlockedIp
  rw [if_pos h]
  exact isBlockedIpv4_iff (isIP_eq_four.mp h)

end Verdict

/-! ## Targets -/

/-- The URL host is the address: the same dotted quad, or a bracketed spelling of it. -/
def HostIs (hostname address : Text) : Prop :=
  isIP address = 4 ∧ hostname = address ∨
    ∃ inner g, hostname = '[' :: (inner ++ [']']) ∧ SpellsIn inner g ∧ SpellsIn address g

/-- **The guard judges the address, not its spelling.** -/
structure JudgesAddresses (toLowerCase : Text → Text) : Prop where
  reads : ∀ s, isIP s = 6 → ∃ g, SpellsIn s g ∧ parseIpv6 toLowerCase s = some g
  same : ∀ s t gs gt, SpellsIn s gs → SpellsIn t gt → ofGroups gs = ofGroups gt →
    parseIpv6 toLowerCase s = parseIpv6 toLowerCase t ∧
      isBlockedIp toLowerCase s = isBlockedIp toLowerCase t
  verdict6 : ∀ s g, SpellsIn s g →
    isIP s = 6 ∧ (isBlockedIp toLowerCase s = true ↔ Blocked6 (ofGroups g))
  verdict4 : ∀ s, isIP s = 4 → (isBlockedIp toLowerCase s = true ↔ Blocked4 (ipv4Value s))
  resolves : ∀ {υ : Type} (api : UrlApi υ) (rawUrl : Text) (allowHttp : Bool)
    (resolver : Text → Option (List Text)) (target : PublicWebhookTarget υ),
    resolvePublicWebhookTarget toLowerCase api rawUrl allowHttp resolver = .ok target →
      isBlockedIp toLowerCase target.address = false ∧ target.family = isIP target.address ∧
        if target.isIpLiteral then target.address = target.hostname
        else ∃ addresses, resolver target.hostname = some addresses ∧ target.address ∈ addresses ∧
          ∀ address ∈ addresses, isBlockedIp toLowerCase address = false
  pins : ∀ {υ : Type} (api : UrlApi υ) (rawUrl : Text) (allowHttp : Bool)
    (resolver : Text → Option (List Text)) (target : PublicWebhookTarget υ) (pinned : υ)
    (request : PinnedRequest),
    resolvePublicWebhookTarget toLowerCase api rawUrl allowHttp resolver = .ok target →
      buildPinnedRequest toLowerCase api target = .ok (pinned, request) →
        request.url = api.href pinned ∧ HostIs (api.hostname pinned) target.address

section Targets

variable {toLowerCase : Text → Text} {υ : Type} {api : UrlApi υ}

theorem isIP_of_not_blocked {s : Text} (h : isBlockedIp toLowerCase s = false) :
    isIP s = 4 ∨ isIP s = 6 := by
  unfold isBlockedIp at h
  split_ifs at h with h4 h6
  · exact .inl h4
  · exact .inr h6

theorem familyOf_eq {s : Text} (h : isBlockedIp toLowerCase s = false) : familyOf s = isIP s := by
  unfold familyOf
  rcases isIP_of_not_blocked h with h4 | h6
  · rw [h4]
    rfl
  · rw [h6]
    rfl

theorem resolveName_ok {url : υ} {host : Text} {addresses? : Option (List Text)}
    {target : PublicWebhookTarget υ}
    (h : resolveName toLowerCase url host addresses? = .ok target) :
    target.hostname = host ∧ target.isIpLiteral = false ∧ target.family = familyOf target.address ∧
      ∃ addresses, addresses? = some addresses ∧ target.address ∈ addresses ∧
        ∀ address ∈ addresses, isBlockedIp toLowerCase address = false := by
  unfold resolveName at h
  cases addresses? with
  | none => cases h
  | some addresses =>
    dsimp only at h
    split_ifs at h with hempty hblocked
    have hclear : ∀ address ∈ addresses, isBlockedIp toLowerCase address = false := by
      intro address hmem
      rw [Bool.not_eq_true, List.any_eq_false] at hblocked
      have hboth := hblocked address hmem
      rw [Bool.not_eq_true, Bool.or_eq_false_iff] at hboth
      exact hboth.2
    cases hchosen : (addresses.find? fun address => isIP address = 4).or addresses.head? with
    | none =>
      rw [hchosen] at h
      cases h
    | some chosen =>
      rw [hchosen] at h
      obtain rfl := Except.ok.inj h
      refine ⟨rfl, rfl, rfl, addresses, rfl, ?_, hclear⟩
      rcases Option.or_eq_some_iff.mp hchosen with hfind | ⟨_, hhead⟩
      · exact List.mem_of_find?_eq_some hfind
      · exact List.mem_of_head? hhead

theorem resolve_ok {rawUrl : Text} {allowHttp : Bool} {resolver : Text → Option (List Text)}
    {target : PublicWebhookTarget υ}
    (h : resolvePublicWebhookTarget toLowerCase api rawUrl allowHttp resolver = .ok target) :
    isBlockedIp toLowerCase target.address = false ∧ target.family = isIP target.address ∧
      if target.isIpLiteral then target.address = target.hostname
      else ∃ addresses, resolver target.hostname = some addresses ∧ target.address ∈ addresses ∧
        ∀ address ∈ addresses, isBlockedIp toLowerCase address = false := by
  unfold resolvePublicWebhookTarget at h
  cases hurl : api.parse rawUrl with
  | none =>
    rw [hurl] at h
    cases h
  | some url =>
    rw [hurl] at h
    dsimp only at h
    split_ifs at h with hscheme hhost hip hblocked
    · obtain rfl := Except.ok.inj h
      have hclear := Bool.not_eq_true _ |>.mp hblocked
      exact ⟨hclear, familyOf_eq hclear, rfl⟩
    · obtain ⟨hname, hliteral, hfamily, addresses, hresolved, hmem, hclear⟩ := resolveName_ok h
      have haddress := hclear _ hmem
      refine ⟨haddress, hfamily.trans (familyOf_eq haddress), ?_⟩
      rw [hliteral, hname]
      exact ⟨addresses, hresolved, hmem, hclear⟩

theorem eq_of_bracketed? {s inner : Text} (h : bracketed? s = some inner) :
    s = '[' :: (inner ++ [']']) := by
  unfold bracketed? at h
  split at h
  · rename_i rest
    split_ifs at h with hlast
    obtain rfl := Option.some.inj h
    rw [List.dropLast_append_getLast? _ hlast]
  · cases h

theorem eq_of_zipIdx {got want : List ℕ} (hlen : got.length = want.length)
    (h : (got.zipIdx.all fun x => some x.1 = want[x.2]?) = true) : got = want := by
  refine List.ext_getElem hlen fun i h₁ h₂ => ?_
  have hi := List.all_eq_true.mp h (got[i], i) (by
    rw [List.mem_zipIdx_iff_getElem?]
    exact List.getElem?_eq_getElem h₁)
  simpa [List.getElem?_eq_getElem h₂] using hi

variable (hlower : LowersAscii toLowerCase)

include hlower

theorem hostIs_of_hostIsAddress {hostname : Text} {target : PublicWebhookTarget υ}
    (htarget : isIP target.address = 4 ∨ isIP target.address = 6)
    (h : hostIsAddress toLowerCase hostname target = true) : HostIs hostname target.address := by
  unfold hostIsAddress at h
  split_ifs at h with hfamily h4
  · rw [not_not] at hfamily
    exact .inl ⟨hfamily.trans h4, of_decide_eq_true h⟩
  · rw [not_not] at hfamily
    obtain ⟨want, hwant⟩ := isIP_eq_six (htarget.resolve_left fun h => h4 (hfamily.symm.trans h))
    cases hinner : bracketed? hostname with
    | none =>
      rw [hinner] at h
      cases h
    | some inner =>
      rw [hinner] at h
      dsimp only at h
      split_ifs at h with h6
      obtain ⟨got, hgot⟩ := isIP_eq_six (not_not.mp h6)
      rw [parseIpv6_eq hlower hgot, parseIpv6_eq hlower hwant] at h
      have hlen : got.length = want.length := by
        obtain ⟨_, _, _, _, _, _, _, _, rfl, _⟩ := exists_groups hgot
        obtain ⟨_, _, _, _, _, _, _, _, rfl, _⟩ := exists_groups hwant
        rfl
      obtain rfl := eq_of_zipIdx hlen h
      exact .inr ⟨inner, got, eq_of_bracketed? hinner, hgot, hwant⟩

theorem pinned_ok {target : PublicWebhookTarget υ} {pinned : υ} {request : PinnedRequest}
    (htarget : isIP target.address = 4 ∨ isIP target.address = 6)
    (h : buildPinnedRequest toLowerCase api target = .ok (pinned, request)) :
    request.url = api.href pinned ∧ HostIs (api.hostname pinned) target.address := by
  unfold buildPinnedRequest at h
  cases hcopy : api.parse (api.href target.url) with
  | none =>
    rw [hcopy] at h
    cases h
  | some copy =>
    rw [hcopy] at h
    dsimp only at h
    by_cases hhost : hostIsAddress toLowerCase
        (api.hostname (api.setHostname copy (pinnedHost target))) target = true
    · rw [if_pos hhost] at h
      obtain ⟨rfl, rfl⟩ := Prod.mk.inj (Except.ok.inj h)
      exact ⟨rfl, hostIs_of_hostIsAddress hlower htarget hhost⟩
    · rw [if_neg hhost] at h
      cases h

omit hlower in
theorem ofGroups_inj {s t : Text} {gs gt : List ℕ} (hs : SpellsIn s gs) (ht : SpellsIn t gt)
    (h : ofGroups gs = ofGroups gt) : gs = gt := by
  obtain ⟨a, b, c, d, e, f, g, k, rfl, ha, hb, hc, hd, he, hf, hg, hk⟩ := exists_groups hs
  obtain ⟨a', b', c', d', e', f', g', k', rfl, ha', hb', hc', hd', he', hf', hg', hk'⟩ :=
    exists_groups ht
  rw [ofGroups_eq, ofGroups_eq] at h
  obtain ⟨rfl, rfl, rfl, rfl, rfl, rfl, rfl, rfl⟩ : a = a' ∧ b = b' ∧ c = c' ∧ d = d' ∧ e = e' ∧
      f = f' ∧ g = g' ∧ k = k' := by omega
  rfl

/-- **The guard judges addresses.** -/
theorem judgesAddresses : JudgesAddresses toLowerCase where
  reads := fun s h => (isIP_eq_six h).imp fun _ hg => ⟨hg, parseIpv6_eq hlower hg⟩
  same := fun s t gs gt hs ht heq => by
    obtain rfl := ofGroups_inj hs ht heq
    refine ⟨(parseIpv6_eq hlower hs).trans (parseIpv6_eq hlower ht).symm, ?_⟩
    rw [Bool.eq_iff_iff, isBlockedIp_iff hlower hs, isBlockedIp_iff hlower ht]
  verdict6 := fun s g h => ⟨isIP_of_spellsIn h, isBlockedIp_iff hlower h⟩
  verdict4 := fun s h => isBlockedIp_iff_of_four h
  resolves := fun _ _ _ _ _ h => resolve_ok h
  pins := fun _ _ _ _ _ _ _ hresolve hpin =>
    pinned_ok hlower (isIP_of_not_blocked (resolve_ok hresolve).1) hpin

end Targets

theorem judgesAddresses_asciiLower : JudgesAddresses asciiLower := judgesAddresses fun _ _ => rfl

end BunMail.SsrfGuard
