import BunMail.Utils.SsrfGuard

/-!
# What `parseIpv6` reads

Every text that spells an address is read as the groups it spells: lowercasing leaves the values of
the groups, a dotted quad becomes the two groups it stands for, and the text between the colons is cut
into the pieces it was put together from.
-/

namespace BunMail.SsrfGuard

open Text Ip

/-- `toLowerCase` on ASCII text. -/
def LowersAscii (toLowerCase : Text → Text) : Prop :=
  ∀ s : Text, (∀ c ∈ s, c.toNat < 128) → toLowerCase s = asciiLower s

/-! ## Dotted quads -/

theorem isDigits_of_isOctet {p : Text} (h : isOctet p = true) : isDigits p = true := by
  have hdigits := isDigit_of_isOctet h
  unfold isOctet at h
  simp only [Bool.and_eq_true, decide_eq_true_eq] at h
  have hlen : p.length ≤ 3 := by
    rw [← decimal_ofDecimal h.1]
    exact length_decimal_le (by decide) (by omega)
  have hne : p ≠ [] := by
    rintro rfl
    cases h.1
  unfold isDigits
  rw [decide_eq_true hne, decide_eq_true hlen, List.all_eq_true.mpr hdigits]
  rfl

theorem ofDecimal_le_of_isOctet {p : Text} (h : isOctet p = true) : ofDecimal p ≤ 255 := by
  unfold isOctet at h
  simp only [Bool.and_eq_true, decide_eq_true_eq] at h
  exact h.2

/-- Shifting an octet in. -/
theorem shiftIn {k : ℕ} (m : ℕ) {o : ℕ} (hk : k < 32) (ho : o < 2 ^ k) :
    BitVec.ofNat 32 m <<< k ||| BitVec.ofNat 32 o = BitVec.ofNat 32 (2 ^ k * m + o) := by
  have ho' : o < 2 ^ 32 := lt_of_lt_of_le ho (Nat.pow_le_pow_right (by decide) hk.le)
  have hsplit : 2 ^ 32 = 2 ^ k * 2 ^ (32 - k) := by rw [← Nat.pow_add]; congr 1; omega
  apply BitVec.eq_of_toNat_eq
  simp only [BitVec.toNat_or, BitVec.toNat_shiftLeft, BitVec.toNat_ofNat, Nat.shiftLeft_eq,
    Nat.mod_eq_of_lt ho']
  have hhigh : m % 2 ^ 32 * 2 ^ k % 2 ^ 32 = 2 ^ k * (m % 2 ^ (32 - k)) := by
    rw [Nat.mod_mul_mod, Nat.mul_comm m, hsplit, Nat.mul_mod_mul_left]
  rw [hhigh, ← Nat.two_pow_add_eq_or_of_lt ho, hsplit]
  have hlow : m = 2 ^ (32 - k) * (m / 2 ^ (32 - k)) + m % 2 ^ (32 - k) := (Nat.div_add_mod _ _).symm
  have hlt : 2 ^ k * (m % 2 ^ (32 - k)) + o < 2 ^ k * 2 ^ (32 - k) := by
    have hmod : m % 2 ^ (32 - k) + 1 ≤ 2 ^ (32 - k) := Nat.mod_lt _ (by positivity)
    calc 2 ^ k * (m % 2 ^ (32 - k)) + o < 2 ^ k * (m % 2 ^ (32 - k)) + 2 ^ k := by omega
      _ = 2 ^ k * (m % 2 ^ (32 - k) + 1) := by ring
      _ ≤ 2 ^ k * 2 ^ (32 - k) := Nat.mul_le_mul_left _ hmod
  conv_rhs => rw [hlow, Nat.mul_add, ← Nat.mul_assoc, Nat.add_assoc, Nat.mul_add_mod]
  rw [Nat.mod_eq_of_lt hlt]

theorem addOctets_eq {ps : List Text} (h : ∀ p ∈ ps, isOctet p = true) (m : ℕ) :
    addOctets (BitVec.ofNat 32 m) ps =
      some (BitVec.ofNat 32 ((ps.map ofDecimal).foldl (fun n octet => 256 * n + octet) m)) := by
  induction ps generalizing m with
  | nil => rfl
  | cons p ps ih =>
    have hp := h p List.mem_cons_self
    have hle := ofDecimal_le_of_isOctet hp
    unfold addOctets
    rw [if_pos (isDigits_of_isOctet hp), if_neg (not_lt.mpr hle),
      shiftIn m (k := 8) (by decide) (Nat.lt_succ_of_le hle),
      ih (fun q hq => h q (List.mem_cons_of_mem _ hq))]
    rfl

/-- **`ipv4ToInt` reads a dotted quad.** -/
theorem ipv4ToInt_eq {s : Text} (h : isIPv4 s = true) :
    ipv4ToInt s = some (BitVec.ofNat 32 (ipv4Value s)) := by
  have hparts := h
  unfold isIPv4 at hparts
  simp only [Bool.and_eq_true, decide_eq_true_eq, List.all_eq_true] at hparts
  unfold ipv4ToInt
  rw [if_pos hparts.1]
  exact addOctets_eq hparts.2 0

theorem ipv4Value_lt {s : Text} (h : isIPv4 s = true) : ipv4Value s < 2 ^ 32 := by
  unfold isIPv4 at h
  simp only [Bool.and_eq_true, decide_eq_true_eq, List.all_eq_true] at h
  obtain ⟨hlen, hoct⟩ := h
  unfold ipv4Value
  match hparts : s.splitOn '.', hlen with
  | [a, b, c, d], _ =>
    rw [hparts] at hoct
    have ha := ofDecimal_le_of_isOctet (hoct a (by simp))
    have hb := ofDecimal_le_of_isOctet (hoct b (by simp))
    have hc := ofDecimal_le_of_isOctet (hoct c (by simp))
    have hd := ofDecimal_le_of_isOctet (hoct d (by simp))
    show 256 * (256 * (256 * (256 * 0 + ofDecimal a) + ofDecimal b) + ofDecimal c) + ofDecimal d < _
    omega

theorem isDotted_of_isIPv4 {s : Text} (h : isIPv4 s = true) : isDotted s = true := by
  unfold isIPv4 at h
  simp only [Bool.and_eq_true, decide_eq_true_eq, List.all_eq_true] at h
  unfold isDotted
  rw [decide_eq_true h.1, Bool.true_and, List.all_eq_true]
  exact fun p hp => isDigits_of_isOctet (h.2 p hp)

/-! ## Groups -/

/-- A number is the value of its hex digits. -/
theorem hex_spec (n : ℕ) : (hex n).all isHexDigit = true ∧
    (hex n).foldl (fun m c => 16 * m + hexValue c) 0 = n := by
  induction n using Nat.strongRecOn with
  | ind n ih =>
    unfold hex
    rw [Nat.toDigits_eq_if (by decide)]
    split_ifs with hn
    · obtain ⟨hx, hv⟩ := digitChar_hex hn
      refine ⟨by rw [List.all_cons, hx]; rfl, ?_⟩
      rw [List.foldl_cons, hv]
      exact Nat.zero_add n
    · obtain ⟨hx, hv⟩ := digitChar_hex (Nat.mod_lt n (by decide : 0 < 16))
      obtain ⟨hall, hval⟩ := ih (n / 16) (Nat.div_lt_self (by omega) (by decide))
      unfold hex at hall hval
      refine ⟨?_, ?_⟩
      · rw [List.all_append, hall, List.all_cons, hx]
        rfl
      · rw [List.foldl_append, hval, List.foldl_cons, hv]
        exact Nat.div_add_mod n 16

theorem parseGroup_hex {n : ℕ} (h : n < 65536) : parseGroup (hex n) = some n := by
  have hlen : (hex n).length ≤ 4 := (Nat.length_toDigits_le_iff (by decide) (by decide)).mpr h
  unfold parseGroup
  rw [if_pos ⟨Nat.toDigits_ne_nil, hlen, (hex_spec n).1⟩, (hex_spec n).2]

theorem parseGroup_lower {p : Text} (h : isGroup p = true) :
    parseGroup (asciiLower p) = some (groupValue p) := by
  have hall := hexDigit_of_isGroup h
  unfold isGroup at h
  simp only [Bool.and_eq_true, decide_eq_true_eq] at h
  have hcond : asciiLower p ≠ [] ∧ (asciiLower p).length ≤ 4 ∧
      (asciiLower p).all isHexDigit = true := by
    refine ⟨fun hnil => h.1.1 (List.map_eq_nil_iff.mp hnil), ?_, ?_⟩
    · unfold asciiLower
      rw [List.length_map]
      exact h.1.2
    · unfold asciiLower
      rw [List.all_map, List.all_eq_true]
      exact hall
  unfold parseGroup
  rw [if_pos hcond]
  unfold asciiLower groupValue
  rw [List.foldl_map]

theorem isPiece_of_parseGroup {p : Text} {n : ℕ} (h : parseGroup p = some n) : IsPiece p := by
  unfold parseGroup at h
  split_ifs at h with hp
  exact ⟨hp.1, fun hc => absurd (List.all_eq_true.mp hp.2.2 _ hc) (by decide)⟩

theorem dot_notMem_of_parseGroup {p : Text} {n : ℕ} (h : parseGroup p = some n) : '.' ∉ p := by
  unfold parseGroup at h
  split_ifs at h with hp
  exact fun hc => absurd (List.all_eq_true.mp hp.2.2 _ hc) (by decide)

/-- The pieces parse to the numbers. -/
abbrev Parse (ps : List Text) (g : List ℕ) : Prop :=
  List.Forall₂ (fun p n => parseGroup p = some n) ps g

theorem parse_mem {ps : List Text} {g : List ℕ} (h : Parse ps g) :
    ∀ p ∈ ps, ∃ n, parseGroup p = some n := by
  induction h with
  | nil => exact fun p hp => absurd hp List.not_mem_nil
  | cons hp _ ih => exact List.forall_mem_cons.mpr ⟨⟨_, hp⟩, ih⟩

theorem isPiece_of_parse {ps : List Text} {g : List ℕ} (h : Parse ps g) : ∀ p ∈ ps, IsPiece p :=
  fun p hp => (parse_mem h p hp).elim fun _ => isPiece_of_parseGroup

theorem mapM_of_parse {ps : List Text} {g : List ℕ} (h : Parse ps g) :
    ps.mapM parseGroup = some g := by
  induction h with
  | nil => rfl
  | cons hp _ ih =>
    rw [List.mapM_cons, hp, ih]
    rfl

/-- Pieces that parse are cut apart by the colons between them. -/
theorem parseGroups_intercalate {ps : List Text} {g : List ℕ} (h : Parse ps g) :
    parseGroups ([':'].intercalate ps) = some g := by
  have hside : parseGroups ([':'].intercalate ps) =
      (sidePieces ([':'].intercalate ps)).mapM parseGroup := by
    unfold parseGroups sidePieces
    split_ifs <;> rfl
  rw [hside, sidePieces_intercalate (isPiece_of_parse h), mapM_of_parse h]

/-! ## The colons -/

theorem splitDouble_cons {c : Char} (hc : c ≠ ':') (s : Text) :
    splitDouble (c :: s) = (splitDouble s).modifyHead (c :: ·) := by
  cases s with
  | nil => rfl
  | cons d s =>
    show (if c = ':' ∧ d = ':' then _ else _) = _
    rw [if_neg fun h => hc h.1]

theorem splitDouble_append {p : Text} (hp : ':' ∉ p) (s : Text) :
    splitDouble (p ++ s) = (splitDouble s).modifyHead (p ++ ·) := by
  induction p with
  | nil =>
    show splitDouble s = _
    cases splitDouble s <;> rfl
  | cons c p ih =>
    rw [List.cons_append, splitDouble_cons fun h => hp (by rw [h]; exact List.mem_cons_self),
      ih fun h => hp (List.mem_cons_of_mem _ h)]
    cases splitDouble s <;> rfl

/-- Pieces joined by single colons stay together. -/
theorem splitDouble_intercalate {ps : List Text} (h : ∀ p ∈ ps, IsPiece p) (s : Text) :
    splitDouble ([':'].intercalate ps ++ s) =
      (splitDouble s).modifyHead ([':'].intercalate ps ++ ·) := by
  induction ps with
  | nil =>
    show splitDouble s = _
    cases splitDouble s <;> rfl
  | cons p ps ih =>
    have hp := h p List.mem_cons_self
    cases ps with
    | nil =>
      rw [List.intercalate_singleton]
      exact splitDouble_append hp.2 s
    | cons q rest =>
      have hq := h q (List.mem_cons_of_mem _ List.mem_cons_self)
      obtain ⟨c, q', rfl⟩ := List.exists_cons_of_ne_nil hq.1
      have hc : c ≠ ':' := fun hc => hq.2 (by rw [hc]; exact List.mem_cons_self)
      have hrest := ih fun p hp => h p (List.mem_cons_of_mem _ hp)
      rw [List.intercalate_cons_cons, List.append_assoc, List.append_assoc, splitDouble_append hp.2]
      rw [List.intercalate_cons_cons_left, List.cons_append] at hrest ⊢
      have hcolon : splitDouble (':' :: c :: ([':'].intercalate (q' :: rest) ++ s)) =
          (splitDouble (c :: ([':'].intercalate (q' :: rest) ++ s))).modifyHead (':' :: ·) := by
        show (if ':' = ':' ∧ c = ':' then _ else _) = _
        rw [if_neg fun h => hc h.2]
      rw [List.nil_append, List.cons_append, hcolon, hrest]
      cases splitDouble s with
      | nil => rfl
      | cons t ts => simp [List.modifyHead]

theorem splitDouble_single {ps : List Text} (h : ∀ p ∈ ps, IsPiece p) :
    splitDouble ([':'].intercalate ps) = [[':'].intercalate ps] := by
  have hs := splitDouble_intercalate h []
  rw [List.append_nil] at hs
  rw [hs]
  show [[':'].intercalate ps ++ []] = _
  rw [List.append_nil]

theorem splitDouble_pair {ps qs : List Text} (hp : ∀ p ∈ ps, IsPiece p) (hq : ∀ q ∈ qs, IsPiece q) :
    splitDouble ([':'].intercalate ps ++ (':' :: ':' :: [':'].intercalate qs)) =
      [[':'].intercalate ps, [':'].intercalate qs] := by
  rw [splitDouble_intercalate hp]
  show (List.modifyHead _ ([] :: splitDouble ([':'].intercalate qs))) = _
  rw [splitDouble_single hq]
  show [[':'].intercalate ps ++ [], _] = _
  rw [List.append_nil]

/-! ## The dotted quad -/

theorem intercalate_concat (init : List Text) (q : Text) :
    [':'].intercalate (init ++ [q]) =
      (if init = [] then [] else [':'].intercalate init ++ [':']) ++ q := by
  induction init with
  | nil => rw [List.nil_append, List.intercalate_singleton, if_pos rfl, List.nil_append]
  | cons p init ih =>
    rw [if_neg (List.cons_ne_nil _ _), List.cons_append,
      List.intercalate_cons_of_ne_nil (List.append_ne_nil_of_right_ne_nil _ (List.cons_ne_nil _ _)), ih]
    cases init with
    | nil => simp
    | cons p' init =>
      rw [if_neg (List.cons_ne_nil _ _), List.intercalate_cons_cons]
      simp only [List.append_assoc]

/-- Nothing, or something that ends at a colon. -/
def Lead (y : Text) : Prop := y = [] ∨ ∃ y', y = y' ++ [':']

theorem lead_append {y : Text} (hy : Lead y) (init : List Text) :
    Lead (y ++ if init = [] then [] else [':'].intercalate init ++ [':']) := by
  split_ifs with h
  · rw [List.append_nil]
    exact hy
  · exact .inr ⟨y ++ [':'].intercalate init, (List.append_assoc _ _ _).symm⟩

theorem afterLast_lead {y q : Text} (hy : Lead y) (hq : ':' ∉ q) : afterLast ':' (y ++ q) = q := by
  have hall : ∀ c ∈ q, decide (c ≠ ':') = true := fun c hc =>
    decide_eq_true fun h => hq (by rw [← h]; exact hc)
  unfold afterLast
  rcases hy with rfl | ⟨y', rfl⟩
  · rw [List.nil_append]
    exact List.rtakeWhile_eq_self_iff.mpr hall
  · rw [List.append_assoc, List.rtakeWhile, List.reverse_append, List.reverse_append,
      List.append_assoc, List.takeWhile_append_of_pos fun c hc => hall c (List.mem_reverse.mp hc)]
    simp

theorem rdropWhile_lead {y q : Text} (hy : Lead y) (hq : ':' ∉ q) :
    (y ++ q).rdropWhile (· ≠ ':') = y := by
  have hall : ∀ c ∈ q, decide (c ≠ ':') = true := fun c hc =>
    decide_eq_true fun h => hq (by rw [← h]; exact hc)
  rcases hy with rfl | ⟨y', rfl⟩
  · rw [List.nil_append]
    exact List.rdropWhile_eq_nil_iff.mpr hall
  · rw [List.rdropWhile, List.reverse_append,
      List.dropWhile_append_of_pos fun c hc => hall c (List.mem_reverse.mp hc)]
    simp

theorem isDotted_eq_false {q : Text} (h : '.' ∉ q) : isDotted q = false := by
  unfold isDotted
  rw [List.splitOn_eq_singleton h]
  rfl

theorem undot_of_no_dot {y q : Text} (hy : Lead y) (hq : ':' ∉ q) (hdot : '.' ∉ q) :
    undot (y ++ q) = some (y ++ q) := by
  unfold undot
  dsimp only
  rw [afterLast_lead hy hq, isDotted_eq_false hdot, if_neg fun h => by cases h.2]

theorem undot_quad {y q : Text} (hy : Lead y) (hne : y ≠ []) (hq : isIPv4 q = true) :
    undot (y ++ q) =
      some (y ++ hex (ipv4Value q / 65536) ++ ':' :: hex (ipv4Value q % 65536)) := by
  have hcolon := (isPiece_of_isIPv4 hq).2
  have hlt := ipv4Value_lt hq
  unfold undot
  dsimp only
  rw [afterLast_lead hy hcolon, rdropWhile_lead hy hcolon, if_pos ⟨hne, isDotted_of_isIPv4 hq⟩,
    ipv4ToInt_eq hq]
  have hhi : (BitVec.ofNat 32 (ipv4Value q) >>> 16).toNat = ipv4Value q / 65536 := by
    rw [BitVec.toNat_ushiftRight, BitVec.toNat_ofNat, Nat.mod_eq_of_lt hlt, Nat.shiftRight_eq_div_pow]
  have hlo : (BitVec.ofNat 32 (ipv4Value q) &&& 0xffff#32).toNat = ipv4Value q % 65536 := by
    rw [BitVec.toNat_and, BitVec.toNat_ofNat, Nat.mod_eq_of_lt hlt]
    exact Nat.and_two_pow_sub_one_eq_mod _ 16
  rw [Option.map_some, hhi, hlo]

/-! ## Lowercased pieces -/

theorem asciiLower_intercalate (ps : List Text) :
    asciiLower ([':'].intercalate ps) = [':'].intercalate (ps.map asciiLower) := by
  induction ps with
  | nil => rfl
  | cons p ps ih =>
    cases ps with
    | nil => rw [List.intercalate_singleton, List.map_singleton, List.intercalate_singleton]
    | cons q rest =>
      rw [List.map_cons] at ih
      rw [List.intercalate_cons_cons, List.map_cons, List.map_cons, List.intercalate_cons_cons, ← ih]
      unfold asciiLower
      rw [List.map_append, List.map_append]
      rfl

theorem asciiLower_of_isIPv4 {q : Text} (h : isIPv4 q = true) : asciiLower q = q := by
  have hid : q.map Char.toLower = q.map id := by
    refine List.map_congr_left fun c hc => ?_
    rcases char_of_isIPv4 h c hc with hd | rfl
    · exact toLower_of_isHexDigit (isHexDigit_of_isDigit hd)
    · rfl
  exact hid.trans (List.map_id q)

theorem parse_lower {ps : List Text} (h : ps.all isGroup = true) :
    Parse (ps.map asciiLower) (ps.map groupValue) := by
  refine List.forall₂_map_left_iff.mpr (List.forall₂_map_right_iff.mpr ?_)
  exact List.forall₂_same.mpr fun p hp => parseGroup_lower (List.all_eq_true.mp h p hp)

/-- **The last pieces**: what `undot` makes of them parses to the groups they spell. -/
theorem exists_undot {tail : List Text} {g : List ℕ} (h : groupsOf tail = some g) {y : Text}
    (hy : Lead y) (hne : y = [] → tail.length ≠ 1) :
    ∃ ps, Parse ps g ∧
      undot (y ++ [':'].intercalate (tail.map asciiLower)) = some (y ++ [':'].intercalate ps) := by
  rcases groupsOf_eq_some h with ⟨hall, rfl⟩ | ⟨init, quad, rfl, hall, hquad, rfl⟩
  · have hparse := parse_lower hall
    refine ⟨tail.map asciiLower, hparse, ?_⟩
    rcases List.eq_nil_or_concat (tail.map asciiLower) with hnil | ⟨init, p, heq⟩
    · rw [hnil]
      exact undot_of_no_dot hy List.not_mem_nil List.not_mem_nil
    · rw [List.concat_eq_append] at heq
      rw [heq] at hparse ⊢
      obtain ⟨n, hn⟩ := parse_mem hparse p (List.mem_append_right _ (List.mem_singleton.mpr rfl))
      rw [intercalate_concat, ← List.append_assoc]
      exact undot_of_no_dot (lead_append hy init) (isPiece_of_parseGroup hn).2
        (dot_notMem_of_parseGroup hn)
  · refine ⟨init.map asciiLower ++ [hex (ipv4Value quad / 65536), hex (ipv4Value quad % 65536)],
      ?_, ?_⟩
    · have hlt := ipv4Value_lt hquad
      refine List.rel_append (parse_lower hall) (.cons ?_ (.cons ?_ .nil))
      · exact parseGroup_hex (by omega)
      · exact parseGroup_hex (Nat.mod_lt _ (by decide))
    · have hlead := lead_append hy (init.map asciiLower)
      rw [List.map_append, List.map_singleton, asciiLower_of_isIPv4 hquad, intercalate_concat,
        ← List.append_assoc, undot_quad hlead ?_ hquad]
      · rw [show init.map asciiLower ++ [hex (ipv4Value quad / 65536), hex (ipv4Value quad % 65536)] =
          init.map asciiLower ++ [hex (ipv4Value quad / 65536)] ++ [hex (ipv4Value quad % 65536)] by
            rw [List.append_assoc]; rfl]
        rw [intercalate_concat, if_neg (List.append_ne_nil_of_right_ne_nil _ (List.cons_ne_nil _ _)),
          intercalate_concat]
        simp only [List.append_assoc, List.singleton_append]
      · intro hnil
        obtain ⟨rfl, hinit⟩ := List.append_eq_nil_iff.mp hnil
        split_ifs at hinit with hi
        · rw [List.map_eq_nil_iff] at hi
          exact hne rfl (by rw [hi]; rfl)
        · exact absurd hinit (List.append_ne_nil_of_right_ne_nil _ (List.cons_ne_nil _ _))

/-! ## Addresses -/

theorem ascii_of_isHexDigit_toLower {c : Char} (h : isHexDigit c.toLower = true) :
    c.toNat < 128 := by
  by_cases hu : c.isUpper = true
  · unfold Char.isUpper at hu
    simp only [decide_eq_true_eq, UInt32.le_iff_toNat_le] at hu
    exact lt_of_le_of_lt hu.2 (by decide)
  · rw [Char.toLower_eq_of_not_isUpper hu] at h
    have hn := isHexDigit_toNat h
    omega

theorem ascii_of_isAddressChar {c : Char} (h : isAddressChar c = true) : c.toNat < 128 := by
  unfold isAddressChar at h
  rcases Bool.or_eq_true_iff.mp h with hx | hx
  · exact ascii_of_isHexDigit_toLower hx
  · simp only [decide_eq_true_eq, List.mem_cons, List.not_mem_nil, or_false] at hx
    rcases hx with rfl | rfl <;> decide

theorem ascii_of_isZoneChar {c : Char} (h : isZoneChar c = true) : c.toNat < 128 := by
  unfold isZoneChar at h
  rcases Bool.or_eq_true_iff.mp h with hx | hx
  · unfold Char.isAlphanum Char.isAlpha Char.isUpper Char.isLower Char.isDigit at hx
    simp only [Bool.or_eq_true, Bool.and_eq_true, decide_eq_true_eq, UInt32.le_iff_toNat_le] at hx
    rcases hx with (hx | hx) | hx
    · exact lt_of_le_of_lt hx.2 (by decide)
    · exact lt_of_le_of_lt hx.2 (by decide)
    · exact lt_of_le_of_lt hx.2 (by decide)
  · simp only [decide_eq_true_eq, List.mem_cons, List.not_mem_nil, or_false] at hx
    rcases hx with rfl | rfl | rfl <;> decide

theorem percent_notMem_asciiLower {a : Text} (h : ∀ c ∈ a, isAddressChar c = true) :
    '%' ∉ asciiLower a := by
  intro hmem
  obtain ⟨c, hc, hpercent⟩ := List.mem_map.mp hmem
  have hchar := h c hc
  unfold isAddressChar at hchar
  rw [hpercent] at hchar
  rcases Bool.or_eq_true_iff.mp hchar with hx | hx
  · revert hx
    decide
  · simp only [decide_eq_true_eq, List.mem_cons, List.not_mem_nil, or_false] at hx
    rcases hx with rfl | rfl <;> cases hpercent

/-- The zone goes. -/
theorem exists_address {toLowerCase : Text → Text} (hlower : LowersAscii toLowerCase) {s : Text}
    {g : List ℕ} (h : SpellsIn s g) :
    ∃ a, Spells a g ∧ ((toLowerCase s).splitOn '%').headD [] = asciiLower a := by
  cases h with
  | plain h =>
    have hchar := addressChar_of_spells h
    refine ⟨s, h, ?_⟩
    rw [hlower s fun c hc => ascii_of_isAddressChar (hchar c hc),
      List.splitOn_eq_singleton (percent_notMem_asciiLower hchar)]
    rfl
  | @zoned a zone g h hne hzone =>
    have hchar := addressChar_of_spells h
    refine ⟨a, h, ?_⟩
    rw [hlower]
    · have hcut : asciiLower (a ++ '%' :: zone) = asciiLower a ++ '%' :: asciiLower zone := by
        unfold asciiLower
        rw [List.map_append]
        rfl
      rw [hcut, List.splitOn_append_cons_self_of_not_mem (percent_notMem_asciiLower hchar)]
      rfl
    · intro c hc
      rcases List.mem_append.mp hc with hc | hc
      · exact ascii_of_isAddressChar (hchar c hc)
      · rcases List.mem_cons.mp hc with rfl | hc
        · decide
        · exact ascii_of_isZoneChar (List.all_eq_true.mp hzone c hc)

/-- **`parseIpv6` reads the groups that the text spells.** -/
theorem parseIpv6_eq {toLowerCase : Text → Text} (hlower : LowersAscii toLowerCase) {s : Text}
    {g : List ℕ} (h : SpellsIn s g) : parseIpv6 toLowerCase s = some g := by
  obtain ⟨a, ha, haddr⟩ := exists_address hlower h
  unfold parseIpv6
  rw [haddr]
  cases ha with
  | @full pieces _ hg hlen =>
    have hone : pieces.length ≠ 1 := by
      intro h1
      obtain ⟨p, rfl⟩ := List.length_eq_one_iff.mp h1
      rcases groupsOf_eq_some hg with ⟨_, rfl⟩ | ⟨init, quad, heq, _, _, rfl⟩
      · cases hlen
      · obtain ⟨rfl, _⟩ := List.append_eq_singleton_iff.mp heq.symm |>.resolve_right (by simp)
        cases hlen
    obtain ⟨ps, hparse, hundot⟩ := exists_undot hg (y := []) (.inl rfl) fun _ => hone
    rw [List.nil_append, List.nil_append, ← asciiLower_intercalate] at hundot
    rw [hundot, Option.bind_eq_bind, Option.bind_some, splitDouble_single (isPiece_of_parse hparse)]
    dsimp only
    rw [parseGroups_intercalate hparse, Option.bind_eq_bind, Option.bind_some, if_pos hlen]
  | @compressed head tail gt hhead hg hlen =>
    have hheads := parse_lower hhead
    obtain ⟨ps, hparse, hundot⟩ := exists_undot hg
      (y := [':'].intercalate (head.map asciiLower) ++ [':', ':'])
      (.inr ⟨[':'].intercalate (head.map asciiLower) ++ [':'], by simp⟩)
      fun hnil => absurd hnil (List.append_ne_nil_of_right_ne_nil _ (List.cons_ne_nil _ _))
    have hlowered : asciiLower ([':'].intercalate head ++ (':' :: ':' :: [':'].intercalate tail)) =
        [':'].intercalate (head.map asciiLower) ++ [':', ':'] ++
          [':'].intercalate (tail.map asciiLower) := by
      rw [← asciiLower_intercalate, ← asciiLower_intercalate]
      unfold asciiLower
      rw [List.map_append, List.append_assoc]
      rfl
    rw [hlowered, hundot, Option.bind_eq_bind, Option.bind_some, List.append_assoc]
    rw [show [':', ':'] ++ [':'].intercalate ps = ':' :: ':' :: [':'].intercalate ps from rfl,
      splitDouble_pair (isPiece_of_parse hheads) (isPiece_of_parse hparse)]
    dsimp only
    rw [parseGroups_intercalate hheads, Option.bind_eq_bind, Option.bind_some,
      parseGroups_intercalate hparse, Option.bind_some, List.length_map,
      if_pos (Nat.lt_of_le_of_lt hlen (by decide)), List.append_assoc]

end BunMail.SsrfGuard
