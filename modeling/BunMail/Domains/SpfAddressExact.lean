import BunMail.Lib.Rows
import BunMail.Domains.SpfAddressBytes

/-!
# Networks and names of an address

The byte and mask comparison of `inNetwork` compares the leading bits, and an address is read back from
the names it is looked up by.
-/

namespace BunMail.Spf

open Text Ip
open SsrfGuard (hex)

variable {address network : IpAddress} {k p : ℕ} {x y : UInt8}

/-! ## Leading bits -/

/-- A bit of an address, the most significant first. -/
def IpAddress.bit (address : IpAddress) (i : ℕ) : Bool :=
  (address.bytes.getD (i / 8) 0).toNat.testBit (7 - i % 8)

/-- The leading bits of two bytes. -/
theorem leading_iff (hk : k ≤ 8) : x.toNat / 2 ^ (8 - k) = y.toNat / 2 ^ (8 - k) ↔
    ∀ j < k, x.toNat.testBit (7 - j) = y.toNat.testBit (7 - j) := by
  constructor
  · intro h j hj
    have hbit := congrArg (fun n => n.testBit (k - 1 - j)) h
    simp only [Nat.testBit_div_two_pow] at hbit
    rwa [show k - 1 - j + (8 - k) = 7 - j by omega] at hbit
  · intro h
    refine Nat.eq_of_testBit_eq fun i => ?_
    rw [Nat.testBit_div_two_pow, Nat.testBit_div_two_pow]
    by_cases hi : i + (8 - k) < 8
    · have hbit := h (7 - (i + (8 - k))) (by omega)
      rwa [show 7 - (7 - (i + (8 - k))) = i + (8 - k) by omega] at hbit
    · have hle : 2 ^ 8 ≤ 2 ^ (i + (8 - k)) := Nat.pow_le_pow_right (by decide) (by omega)
      rw [Nat.testBit_lt_two_pow (lt_of_lt_of_le x.toNat_lt hle),
        Nat.testBit_lt_two_pow (lt_of_lt_of_le y.toNat_lt hle)]

theorem byte_iff : x = y ↔ ∀ j < 8, x.toNat.testBit (7 - j) = y.toNat.testBit (7 - j) := by
  rw [← leading_iff (Nat.le_refl 8), Nat.sub_self, Nat.pow_zero, Nat.div_one, Nat.div_one, UInt8.toNat_inj]

/-- The mask takes the leading bits. -/
theorem mask_iff (hk : 0 < k ∧ k < 8) : x &&& 0xff <<< UInt8.ofNat (8 - k) = y &&& 0xff <<< UInt8.ofNat (8 - k) ↔
    ∀ j < k, x.toNat.testBit (7 - j) = y.toNat.testBit (7 - j) := by
  have hmask : ((0xff : UInt8) <<< UInt8.ofNat (8 - k)).toNat = (2 ^ k - 1) <<< (8 - k) := by
    obtain ⟨hpos, hlt⟩ := hk
    interval_cases k <;> rfl
  have hwidth : 8 - k + k = 8 := by omega
  have hand : ∀ z : UInt8, (z &&& 0xff <<< UInt8.ofNat (8 - k)).toNat = z.toNat / 2 ^ (8 - k) * 2 ^ (8 - k) := by
    intro z
    rw [UInt8.toNat_and, hmask, SsrfGuard.and_leading (by rw [hwidth]; exact z.toNat_lt)]
  rw [← leading_iff hk.2.le, ← UInt8.toNat_inj, hand, hand]
  exact Nat.mul_left_inj (Nat.two_pow_pos _).ne'

theorem getElem?_iff {a b : List UInt8} {i : ℕ} (ha : i < a.length) (hb : i < b.length) :
    a[i]? = b[i]? ↔ a.getD i 0 = b.getD i 0 := by
  rw [List.getElem?_eq_getElem ha, List.getElem?_eq_getElem hb, Option.some_inj,
    List.getD_eq_getElem _ _ ha, List.getD_eq_getElem _ _ hb]

/-- **The test compares the leading bits.** -/
theorem inNetwork_iff (ha : address.Valid) (hn : network.Valid) (hfamily : address.family = network.family)
    (hp : p ≤ 8 * address.family.size) :
    inNetwork address network p = true ↔ ∀ i < p, address.bit i = network.bit i := by
  have hparts : inNetwork address network p = true ↔
      (∀ i < p / 8, address.bytes.getD i 0 = network.bytes.getD i 0) ∧
        ∀ j < p % 8, (address.bytes.getD (p / 8) 0).toNat.testBit (7 - j) =
          (network.bytes.getD (p / 8) 0).toNat.testBit (7 - j) := by
    unfold inNetwork
    dsimp only
    rw [decide_eq_true hfamily, Bool.true_and, Bool.and_eq_true, Bool.or_eq_true, decide_eq_true_iff,
      decide_eq_true_iff, List.all_eq_true]
    refine and_congr ?_ ?_
    · constructor
      · intro h i hi
        exact (getElem?_iff (by rw [ha]; omega) (by rw [hn, ← hfamily]; omega)).mp
          (of_decide_eq_true (h i (List.mem_range.mpr hi)))
      · intro h i hi
        have hlt := List.mem_range.mp hi
        exact decide_eq_true ((getElem?_iff (by rw [ha]; omega) (by rw [hn, ← hfamily]; omega)).mpr (h i hlt))
    · by_cases hbits : p % 8 = 0
      · rw [hbits]
        exact iff_of_true (.inl rfl) fun j hj => absurd hj (Nat.not_lt_zero j)
      · rw [mask_iff ⟨Nat.pos_of_ne_zero hbits, Nat.mod_lt _ (by decide)⟩]
        exact or_iff_right hbits
  rw [hparts]
  constructor
  · rintro ⟨hwhole, hbits⟩ i hi
    unfold IpAddress.bit
    by_cases hbyte : i / 8 < p / 8
    · rw [hwhole _ hbyte]
    · rw [show i / 8 = p / 8 by omega]
      exact hbits _ (by omega)
  · intro h
    refine ⟨fun i hi => byte_iff.mpr fun j hj => ?_, fun j hj => ?_⟩
    · have hbit := h (8 * i + j) (by omega)
      unfold IpAddress.bit at hbit
      rwa [show (8 * i + j) / 8 = i by omega, show (8 * i + j) % 8 = j by omega] at hbit
    · have hbit := h (8 * (p / 8) + j) (by omega)
      unfold IpAddress.bit at hbit
      rwa [show (8 * (p / 8) + j) / 8 = p / 8 by omega, show (8 * (p / 8) + j) % 8 = j by omega] at hbit

/-! ## Names -/

/-- The byte of every two hex digits. -/
def ofNibbles : List ℕ → List UInt8
  | high :: low :: rest => UInt8.ofNat (16 * high + low) :: ofNibbles rest
  | _ => []

/-- The address that labels spell: four numbers, or 32 hex digits. -/
def readLabels (labels : List Text) : Option IpAddress :=
  if labels.length = 4 then
    some { family := .four, bytes := labels.map fun label => UInt8.ofNat (ofDecimal label) }
  else if labels.length = 32 then
    some { family := .six, bytes := ofNibbles (labels.map groupValue) }
  else none

/-- The labels below which an address is looked up. -/
def Family.zone : Family → List Text
  | .four => ["in-addr".toList, "arpa".toList]
  | .six => ["ip6".toList, "arpa".toList]

/-- The labels of an address, the most significant first. -/
def IpAddress.labels (address : IpAddress) : List Text :=
  match address.family with
  | .four => address.bytes.map fun b => decimal b.toNat
  | .six => nibbles address

theorem join_eq_intercalate (sep : Text) (parts : List Text) : join sep parts = sep.intercalate parts := by
  induction parts with
  | nil => rfl
  | cons part parts ih =>
    cases parts with
    | nil => rw [List.intercalate_singleton]; rfl
    | cons next parts => rw [List.intercalate_cons_cons, ← ih]; rfl

theorem dot_notMem_hex (m : ℕ) : '.' ∉ hex m := fun hmem =>
  absurd (List.all_eq_true.mp (SsrfGuard.hex_spec m).1 _ hmem) (by decide)

theorem dot_notMem_labels : ∀ label ∈ address.labels, '.' ∉ label := by
  intro label hlabel
  unfold IpAddress.labels at hlabel
  split at hlabel
  · obtain ⟨byte, -, rfl⟩ := List.mem_map.mp hlabel
    exact fun hmem => absurd (isDigit_of_mem_decimal hmem) (by decide)
  · obtain ⟨byte, -, hlabel⟩ := List.mem_flatMap.mp hlabel
    rcases List.mem_cons.mp hlabel with rfl | hlabel
    · exact dot_notMem_hex _
    · rw [List.mem_singleton.mp hlabel]
      exact dot_notMem_hex _

theorem dot_notMem_zone (family : Family) : ∀ label ∈ family.zone, '.' ∉ label := by
  cases family <;> decide

theorem labels_ne_nil (h : address.Valid) : address.labels ≠ [] := by
  intro hnil
  obtain ⟨family, bytes⟩ := address
  have hlength : bytes.length = family.size := h
  obtain ⟨byte, rest, rfl⟩ : ∃ byte rest, bytes = byte :: rest := by
    refine List.exists_cons_of_ne_nil ?_
    rintro rfl
    cases family <;> cases hlength
  cases family <;> cases hnil

theorem ofNibbles_nibbles (bytes : List UInt8) :
    ofNibbles ((bytes.flatMap fun byte => [hex (byte.toNat / 16), hex (byte.toNat % 16)]).map groupValue) =
      bytes := by
  induction bytes with
  | nil => rfl
  | cons byte bytes ih =>
    have hbyte := byte.toNat_lt
    have hhigh := (isGroup_hex (m := byte.toNat / 16) (by omega)).2
    have hlow := (isGroup_hex (m := byte.toNat % 16) (by omega)).2
    rw [List.flatMap_cons, List.map_append, List.map_cons, List.map_singleton, hhigh, hlow, List.cons_append,
      List.cons_append, ofNibbles, List.nil_append, ih, Nat.div_add_mod, UInt8.ofNat_toNat]

/-- The labels spell the address. -/
theorem readLabels_labels (h : address.Valid) : readLabels address.labels = some address := by
  obtain ⟨family, bytes⟩ := address
  cases family with
  | four =>
    have hlength : (bytes.map fun b => decimal b.toNat).length = 4 := (List.length_map _).trans h
    have hbytes : (bytes.map fun b => decimal b.toNat).map (fun label => UInt8.ofNat (ofDecimal label)) =
        bytes := by
      rw [List.map_map]
      refine (List.map_congr_left fun byte _ => ?_).trans (List.map_id bytes)
      show UInt8.ofNat (ofDecimal (decimal byte.toNat)) = byte
      rw [ofDecimal_decimal, UInt8.ofNat_toNat]
    show readLabels (bytes.map fun b => decimal b.toNat) = _
    rw [readLabels, if_pos hlength, hbytes]
  | six =>
    have hlength : (nibbles ⟨.six, bytes⟩).length = 32 := by
      have hsize : bytes.length = 16 := h
      simp [nibbles, List.length_flatMap, hsize]
    show readLabels (nibbles ⟨.six, bytes⟩) = _
    rw [readLabels, if_neg (by rw [hlength]; decide), if_pos hlength]
    exact congrArg (fun b => some (IpAddress.mk .six b)) (ofNibbles_nibbles bytes)

theorem splitOn_macroIp (h : address.Valid) : (macroIp address).splitOn '.' = address.labels := by
  have hjoined : macroIp address = ['.'].intercalate address.labels := by
    obtain ⟨_ | _, bytes⟩ := address
    · exact join_eq_intercalate _ _
    · exact join_eq_intercalate _ _
  rw [hjoined]
  exact List.splitOn_intercalate '.' dot_notMem_labels (labels_ne_nil h)

theorem splitOn_reverseName (h : address.Valid) :
    (reverseName address).splitOn '.' = address.labels.reverse ++ address.family.zone := by
  have hne : address.labels.reverse ≠ [] := fun hnil => labels_ne_nil h (List.reverse_eq_nil_iff.mp hnil)
  have hzone : address.family.zone ≠ [] := by
    cases address.family <;> exact List.cons_ne_nil _ _
  have hname : reverseName address = ['.'].intercalate (address.labels.reverse ++ address.family.zone) := by
    rw [intercalate_append_of_ne_nil hne hzone]
    obtain ⟨_ | _, bytes⟩ := address
    · show join ['.'] (bytes.reverse.map fun b => decimal b.toNat) ++ _ = _
      rw [join_eq_intercalate, List.map_reverse]
      rfl
    · show join ['.'] (nibbles ⟨.six, bytes⟩).reverse ++ _ = _
      rw [join_eq_intercalate]
      rfl
  have hdots : ∀ label ∈ address.labels.reverse ++ address.family.zone, '.' ∉ label := by
    intro label hlabel
    rcases List.mem_append.mp hlabel with hlabel | hlabel
    · exact dot_notMem_labels label (List.mem_reverse.mp hlabel)
    · exact dot_notMem_zone _ label hlabel
  rw [hname]
  exact List.splitOn_intercalate '.' hdots (List.append_ne_nil_of_left_ne_nil hne _)

/-! ## The address arithmetic -/

/-- **The arithmetic is on the address, not on its text**: every text of an address is parsed to its
bytes, an IPv4 address inside an IPv6 one is found by its number, networks are compared by their leading
bits, and an address is read back from its names. -/
theorem spfAddress_exact :
    (∀ text, (isIPv4 text = true ∨ isIPv6 text = true ∧ '%' ∉ text) ↔
      ∃ family n, Denotes text family n) ∧
    (∀ text family n, Denotes text family n → ∃ address, parseIp text = some address ∧ address.Valid ∧
      address.family = family ∧ ofBytes address.bytes = n) ∧
    (∀ text text' family n, Denotes text family n → Denotes text' family n →
      parseIp text = parseIp text') ∧
    (∀ text family n, Denotes (trim text) family n → ∃ address, clientAddress text = some address ∧
      address.Valid ∧ (address.family, ofBytes address.bytes) =
        if family = .six ∧ n / 2 ^ 32 = 0xffff then (.four, n % 2 ^ 32) else (family, n)) ∧
    (∀ address network : IpAddress, address.Valid → network.Valid → address.family = network.family →
      ∀ p ≤ 8 * address.family.size,
        inNetwork address network p = true ↔ ∀ i < p, address.bit i = network.bit i) ∧
    ∀ address : IpAddress, address.Valid →
      readLabels ((macroIp address).splitOn '.') = some address ∧
      ∃ labels, (reverseName address).splitOn '.' = labels.reverse ++ address.family.zone ∧
        readLabels labels = some address := by
  refine ⟨fun _ => denotes_iff, fun _ _ _ => parseIp_denotes, ?_, fun _ _ _ => clientAddress_denotes,
    fun _ _ ha hn hfamily _ => inNetwork_iff ha hn hfamily, ?_⟩
  · intro text text' family n h h'
    obtain ⟨address, hparse, hvalid, hfamily, hn⟩ := parseIp_denotes h
    obtain ⟨address', hparse', hvalid', hfamily', hn'⟩ := parseIp_denotes h'
    rw [hparse, hparse', valid_ext hvalid hvalid' (hfamily.trans hfamily'.symm) (hn.trans hn'.symm)]
  · intro address hvalid
    rw [splitOn_macroIp hvalid]
    exact ⟨readLabels_labels hvalid, address.labels, splitOn_reverseName hvalid, readLabels_labels hvalid⟩

theorem spfAddress_exact_mapped : ∃ address, clientAddress "::ffff:192.0.2.1".toList = some address ∧
    address.Valid ∧ (address.family, ofBytes address.bytes) = (.four, 0xc0000201) := by
  have hspells : Spells (trim "::ffff:192.0.2.1".toList) [0, 0, 0, 0, 0, 0xffff, 0xc000, 0x201] :=
    @Spells.compressed [] ["ffff".toList, "192.0.2.1".toList] [0xffff, 0xc000, 0x201] (by decide) (by decide)
      (by decide)
  exact spfAddress_exact.2.2.2.1 _ .six _ (.six hspells)

end BunMail.Spf
