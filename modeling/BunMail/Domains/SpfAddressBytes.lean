import BunMail.Domains.SpfAddress
import BunMail.Utils.SsrfVerdict

/-!
# The bytes of an address

Every text that spells an address is parsed to the bytes of that address, whose number is the one the
text spells, so that texts of one address are parsed alike.  An IPv4 address inside an IPv6 one is found
by that number.
-/

namespace BunMail.Spf

open Text Ip
open SsrfGuard (splitDouble hex ofGroups Lead)

/-! ## Numbers -/

/-- The bytes of an address. -/
def Family.size : Family → ℕ
  | .four => 4
  | .six => 16

/-- The address has the bytes of its family. -/
def IpAddress.Valid (address : IpAddress) : Prop := address.bytes.length = address.family.size

/-- The number that bytes spell, the first one the most significant. -/
def ofBytes (bytes : List UInt8) : ℕ := ofOctets (bytes.map UInt8.toNat)

/-- The text spells the address of the family. -/
inductive Denotes : Text → Family → ℕ → Prop
  | four {s : Text} (h : isIPv4 s = true) : Denotes s .four (ipv4Value s)
  | six {s : Text} {g : List ℕ} (h : Spells s g) : Denotes s .six (ofGroups g)

variable {s text : Text} {g : List ℕ} {family : Family} {n : ℕ} {bytes bytes' : List UInt8}

theorem ofBytes_append (bytes bytes' : List UInt8) :
    ofBytes (bytes ++ bytes') = 256 ^ bytes'.length * ofBytes bytes + ofBytes bytes' := by
  induction bytes' using List.reverseRecOn with
  | nil => simp [ofBytes, ofOctets]
  | append_singleton bytes' byte ih =>
    have hlast : ∀ l : List UInt8, ofBytes (l ++ [byte]) = 256 * ofBytes l + byte.toNat := by
      intro l
      unfold ofBytes ofOctets
      rw [List.map_append, List.foldl_append]
      rfl
    rw [← List.append_assoc, hlast, hlast, ih, List.length_append, List.length_singleton, Nat.pow_succ]
    ring

theorem ofBytes_singleton (byte : UInt8) : ofBytes [byte] = byte.toNat := by
  simp [ofBytes, ofOctets]

theorem ofBytes_lt (bytes : List UInt8) : ofBytes bytes < 256 ^ bytes.length := by
  induction bytes using List.reverseRecOn with
  | nil => simp [ofBytes, ofOctets]
  | append_singleton bytes byte ih =>
    have hbyte := byte.toNat_lt
    rw [ofBytes_append, ofBytes_singleton, List.length_append, List.length_singleton, Nat.pow_succ]
    omega

/-- Bytes are known by their number. -/
theorem ofBytes_inj (hlength : bytes.length = bytes'.length) (h : ofBytes bytes = ofBytes bytes') :
    bytes = bytes' := by
  induction bytes using List.reverseRecOn generalizing bytes' with
  | nil => exact (List.length_eq_zero_iff.mp hlength.symm).symm
  | append_singleton bytes byte ih =>
    rcases List.eq_nil_or_concat bytes' with rfl | ⟨front, last, rfl⟩
    · simp at hlength
    · rw [List.concat_eq_append] at hlength h ⊢
      have hbyte := byte.toNat_lt
      have hlast := last.toNat_lt
      rw [ofBytes_append, ofBytes_append, ofBytes_singleton, ofBytes_singleton, List.length_singleton,
        List.length_singleton, pow_one] at h
      have hfront : ofBytes bytes = ofBytes front := by omega
      have hsame : byte = last := by
        refine UInt8.toNat_inj.mp ?_
        rw [hfront] at h
        omega
      rw [ih (by simpa using hlength) hfront, hsame]

/-! ## Dotted quads -/

theorem toNat_ofDecimal {p : Text} (h : isOctet p = true) :
    (UInt8.ofNat (ofDecimal p)).toNat = ofDecimal p := by
  have hle := SsrfGuard.ofDecimal_le_of_isOctet h
  rw [UInt8.toNat_ofNat', Nat.mod_eq_of_lt (by omega)]

theorem parseIp_four (h : isIPv4 s = true) : ∃ address, parseIp s = some address ∧ address.Valid ∧
    address.family = .four ∧ ofBytes address.bytes = ipv4Value s := by
  refine ⟨_, if_pos h, ?_, rfl, ?_⟩
  · have hlength := of_decide_eq_true (Bool.and_eq_true_iff.mp h).1
    exact (List.length_map _).trans hlength
  · have hoctets : ((s.splitOn '.').map fun part => UInt8.ofNat (ofDecimal part)).map UInt8.toNat =
        (s.splitOn '.').map ofDecimal := by
      rw [List.map_map]
      exact List.map_congr_left fun part hpart => toNat_ofDecimal (isOctet_of_mem h hpart)
    unfold ofBytes ipv4Value
    rw [hoctets]

/-! ## Groups -/

theorem isGroup_hex {m : ℕ} (h : m < 65536) : isGroup (hex m) = true ∧ groupValue (hex m) = m := by
  obtain ⟨hdigits, hvalue⟩ := SsrfGuard.hex_spec m
  have hlower : (hex m).map Char.toLower = hex m := by
    refine (List.map_congr_left fun c hc => ?_).trans (List.map_id _)
    exact toLower_of_isHexDigit (List.all_eq_true.mp hdigits c hc)
  have hne : hex m ≠ [] := Nat.toDigits_ne_nil
  have hlength : (hex m).length ≤ 4 := (Nat.length_toDigits_le_iff (by decide) (by decide)).mpr h
  constructor
  · unfold isGroup
    rw [decide_eq_true hne, decide_eq_true hlength, Bool.true_and, Bool.true_and]
    rw [← hlower, List.all_map] at hdigits
    exact hdigits
  · rw [← hlower, List.foldl_map] at hvalue
    exact hvalue

theorem unquad_of_no_dot {y q : Text} (hy : Lead y) (hq : ':' ∉ q) (hdot : '.' ∉ q) :
    unquad (y ++ q) = y ++ q := by
  unfold unquad
  dsimp only
  rw [SsrfGuard.afterLast_lead hy hq, if_neg hdot]

theorem unquad_quad {y q : Text} (hy : Lead y) (hq : isIPv4 q = true) :
    unquad (y ++ q) = y ++ hex (ipv4Value q / 65536) ++ ':' :: hex (ipv4Value q % 65536) := by
  have hcolon := (isPiece_of_isIPv4 hq).2
  have hlength := of_decide_eq_true (Bool.and_eq_true_iff.mp hq).1
  have hdot : '.' ∈ q := by
    by_contra hnone
    rw [List.splitOn_eq_singleton hnone] at hlength
    exact absurd hlength (by simp)
  unfold unquad
  dsimp only
  rw [SsrfGuard.afterLast_lead hy hcolon, if_pos hdot, SsrfGuard.rdropWhile_lead hy hcolon]
  unfold ipv4Value ofOctets
  match hparts : q.splitOn '.', hlength with
  | [a, b, c, d], _ =>
    have hoctet : ∀ part ∈ [a, b, c, d], ofDecimal part < 2 ^ 8 := by
      intro part hpart
      rw [← hparts] at hpart
      exact Nat.lt_succ_of_le (SsrfGuard.ofDecimal_le_of_isOctet (isOctet_of_mem hq hpart))
    have hb := hoctet b (by simp)
    have hc := hoctet c (by simp)
    have hd := hoctet d (by simp)
    simp only [List.map_cons, List.map_nil, List.getD_cons_zero, List.getD_cons_succ, List.foldl_cons,
      List.foldl_nil]
    rw [← Nat.shiftLeft_add_eq_or_of_lt hb, ← Nat.shiftLeft_add_eq_or_of_lt hd, Nat.shiftLeft_eq,
      Nat.shiftLeft_eq]
    congr 2
    · congr 1
      omega
    · congr 1
      omega

/-- A dotted quad at the end is written as groups, and then all pieces are groups. -/
theorem exists_unquad {tail : List Text} (h : groupsOf tail = some g) {y : Text} (hy : Lead y) :
    ∃ ps : List Text, ps.all isGroup = true ∧ ps.map groupValue = g ∧
      unquad (y ++ [':'].intercalate tail) = y ++ [':'].intercalate ps := by
  rcases groupsOf_eq_some h with ⟨hall, rfl⟩ | ⟨init, quad, rfl, hall, hquad, rfl⟩
  · refine ⟨tail, hall, rfl, ?_⟩
    rcases List.eq_nil_or_concat tail with rfl | ⟨init, p, rfl⟩
    · exact unquad_of_no_dot hy List.not_mem_nil List.not_mem_nil
    · rw [List.concat_eq_append] at hall ⊢
      have hp : isGroup p = true := List.all_eq_true.mp hall p (by simp)
      have hdot : '.' ∉ p := fun hmem => absurd (hexDigit_of_isGroup hp _ hmem) (by decide)
      rw [SsrfGuard.intercalate_concat, ← List.append_assoc]
      exact unquad_of_no_dot (SsrfGuard.lead_append hy init) (isPiece_of_isGroup hp).2 hdot
  · have hlt := SsrfGuard.ipv4Value_lt hquad
    obtain ⟨hhigh, hhighValue⟩ := isGroup_hex (m := ipv4Value quad / 65536) (by omega)
    obtain ⟨hlow, hlowValue⟩ := isGroup_hex (m := ipv4Value quad % 65536) (Nat.mod_lt _ (by decide))
    refine ⟨init ++ [hex (ipv4Value quad / 65536)] ++ [hex (ipv4Value quad % 65536)], ?_, ?_, ?_⟩
    · rw [List.all_append, List.all_append, hall, List.all_cons, hhigh, List.all_cons, hlow]
      rfl
    · rw [List.map_append, List.map_append, List.map_singleton, List.map_singleton, hhighValue, hlowValue,
        List.append_assoc]
      rfl
    · rw [SsrfGuard.intercalate_concat, ← List.append_assoc, unquad_quad (SsrfGuard.lead_append hy init) hquad,
        SsrfGuard.intercalate_concat, if_neg (List.append_ne_nil_of_right_ne_nil _ (List.cons_ne_nil _ _)),
        SsrfGuard.intercalate_concat]
      simp only [List.append_assoc, List.singleton_append]

theorem ipv6Groups_pair {ps qs : List Text} (hp : ∀ p ∈ ps, IsPiece p) (hq : ∀ q ∈ qs, IsPiece q) :
    ipv6Groups ([':'].intercalate ps ++ ':' :: ':' :: [':'].intercalate qs) =
      ps ++ List.replicate (8 - ps.length - qs.length) ['0'] ++ qs := by
  unfold ipv6Groups
  rw [SsrfGuard.splitDouble_pair hp hq]
  show sidePieces ([':'].intercalate ps) ++
    List.replicate (8 - (sidePieces ([':'].intercalate ps)).length -
      (sidePieces ([':'].intercalate qs)).length) ['0'] ++ sidePieces ([':'].intercalate qs) = _
  rw [sidePieces_intercalate hp, sidePieces_intercalate hq]

/-- The groups of a text that spells an address, the left out ones filled in. -/
theorem exists_ipv6Groups (h : Spells s g) : ∃ gs : List Text, ipv6Groups (unquad s) = gs ∧
    gs.map groupValue = g := by
  cases h with
  | @full pieces g hpieces hlength =>
    obtain ⟨ps, hall, hvalues, hunquad⟩ := exists_unquad hpieces (y := []) (.inl rfl)
    have hps : ∀ p ∈ ps, IsPiece p := fun p hp => isPiece_of_isGroup (List.all_eq_true.mp hall p hp)
    rw [List.nil_append, List.nil_append] at hunquad
    refine ⟨ps, ?_, hvalues⟩
    rw [hunquad]
    unfold ipv6Groups
    rw [SsrfGuard.splitDouble_single hps]
    exact sidePieces_intercalate hps
  | @compressed head tail g hhead htail hlength =>
    have hlead : Lead ([':'].intercalate head ++ [':', ':']) :=
      .inr ⟨[':'].intercalate head ++ [':'], by rw [List.append_assoc]; rfl⟩
    obtain ⟨ps, hall, hvalues, hunquad⟩ := exists_unquad htail hlead
    have hheads : ∀ p ∈ head, IsPiece p := fun p hp => isPiece_of_isGroup (List.all_eq_true.mp hhead p hp)
    have hps : ∀ p ∈ ps, IsPiece p := fun p hp => isPiece_of_isGroup (List.all_eq_true.mp hall p hp)
    have hzero : groupValue ['0'] = 0 := by decide
    rw [List.append_assoc, List.append_assoc] at hunquad
    refine ⟨_, rfl, ?_⟩
    rw [show [':'].intercalate head ++ ':' :: ':' :: [':'].intercalate tail =
      [':'].intercalate head ++ ([':', ':'] ++ [':'].intercalate tail) from rfl, hunquad]
    have hgroups := ipv6Groups_pair hheads hps
    rw [show [':'].intercalate head ++ ':' :: ':' :: [':'].intercalate ps =
      [':'].intercalate head ++ ([':', ':'] ++ [':'].intercalate ps) from rfl] at hgroups
    rw [hgroups, List.map_append, List.map_append, List.map_replicate, hzero, hvalues, List.append_assoc,
      ← hvalues, List.length_map]

/-- Two bytes a group. -/
theorem ofBytes_groups {gs : List Text} (h : ∀ x ∈ gs.map groupValue, x < 65536) :
    ofBytes (gs.flatMap fun group =>
      [UInt8.ofNat (groupValue group >>> 8), UInt8.ofNat (groupValue group)]) =
        ofGroups (gs.map groupValue) := by
  unfold ofBytes ofOctets ofGroups
  generalize 0 = m
  induction gs generalizing m with
  | nil => rfl
  | cons group gs ih =>
    rw [List.map_cons, List.forall_mem_cons] at h
    have hhigh : (UInt8.ofNat (groupValue group >>> 8)).toNat = groupValue group / 256 := by
      rw [UInt8.toNat_ofNat', Nat.shiftRight_eq_div_pow]
      omega
    have hlow : (UInt8.ofNat (groupValue group)).toNat = groupValue group % 256 := UInt8.toNat_ofNat'
    have hgroup : 256 * (256 * m + groupValue group / 256) + groupValue group % 256 =
        65536 * m + groupValue group := by omega
    rw [List.flatMap_cons, List.map_append, List.foldl_append, List.map_cons, List.map_cons, List.map_nil,
      List.foldl_cons, List.foldl_cons, List.foldl_nil, hhigh, hlow, hgroup, List.map_cons, List.foldl_cons]
    exact ih h.2 _

theorem parseIp_six (h : Spells s g) : ∃ address, parseIp s = some address ∧ address.Valid ∧
    address.family = .six ∧ ofBytes address.bytes = ofGroups g := by
  have hfour : ¬isIPv4 s = true := not_isIPv4_of_colon (colon_mem_of_spells h)
  have hpercent : '%' ∉ s := fun hmem =>
    absurd (of_decide_eq_true (percent_notMem_of_spells h _ hmem)) (by simp)
  have hsix : isIPv6 s = true := isIPv6_iff.mpr ⟨g, .plain h⟩
  obtain ⟨gs, hgroups, hvalues⟩ := exists_ipv6Groups h
  have hlength : gs.length = 8 := by
    rw [← length_of_spells h, ← hvalues, List.length_map]
  have hbytes : ipv6Bytes s = gs.flatMap fun group =>
      [UInt8.ofNat (groupValue group >>> 8), UInt8.ofNat (groupValue group)] := by
    unfold ipv6Bytes
    rw [hgroups]
    refine List.take_left' ?_
    simp [List.length_flatMap, hlength]
  have hparse : parseIp s = some { family := .six, bytes := ipv6Bytes s } := by
    unfold parseIp
    rw [if_neg hfour, if_neg (by simp [hpercent, hsix])]
  refine ⟨_, hparse, ?_, rfl, ?_⟩
  · show (ipv6Bytes s).length = 16
    rw [hbytes]
    simp [List.length_flatMap, hlength]
  · show ofBytes (ipv6Bytes s) = ofGroups g
    rw [hbytes, ofBytes_groups (by rw [hvalues]; exact SsrfGuard.lt_of_spells h), hvalues]

/-! ## Parsing -/

/-- **An address is parsed to its bytes.** -/
theorem parseIp_denotes (h : Denotes text family n) : ∃ address, parseIp text = some address ∧
    address.Valid ∧ address.family = family ∧ ofBytes address.bytes = n := by
  cases h with
  | four h => exact parseIp_four h
  | six h => exact parseIp_six h

theorem valid_ext {a b : IpAddress} (ha : a.Valid) (hb : b.Valid) (hfamily : a.family = b.family)
    (hn : ofBytes a.bytes = ofBytes b.bytes) : a = b := by
  obtain ⟨family, bytes⟩ := a
  obtain ⟨family', bytes'⟩ := b
  obtain rfl : family = family' := hfamily
  have hbytes : bytes = bytes' := ofBytes_inj (ha.trans hb.symm) hn
  rw [hbytes]

/-- The texts with a meaning are the accepted ones without a zone. -/
theorem denotes_iff : (isIPv4 text = true ∨ isIPv6 text = true ∧ '%' ∉ text) ↔
    ∃ family n, Denotes text family n := by
  constructor
  · rintro (h | ⟨h, hpercent⟩)
    · exact ⟨_, _, .four h⟩
    · obtain ⟨g, hspells⟩ := isIPv6_iff.mp h
      cases hspells with
      | plain h => exact ⟨_, _, .six h⟩
      | zoned => exact absurd (by simp) hpercent
  · rintro ⟨family, n, h⟩
    cases h with
    | four h => exact .inl h
    | six h =>
      refine .inr ⟨isIPv6_iff.mpr ⟨_, .plain h⟩, fun hmem => ?_⟩
      exact absurd (of_decide_eq_true (percent_notMem_of_spells h _ hmem)) (by simp)

/-! ## Embedded IPv4 addresses -/

theorem mapped_iff {address : IpAddress} (h : address.bytes.length = 16) :
    ((address.bytes.take 10).all (· = 0) = true ∧ address.bytes[10]? = some 0xff ∧
      address.bytes[11]? = some 0xff) ↔ ofBytes address.bytes / 2 ^ 32 = 0xffff := by
  have hleading : ofBytes address.bytes / 2 ^ 32 = ofBytes (address.bytes.take 12) := by
    have hsplit := ofBytes_append (address.bytes.take 12) (address.bytes.drop 12)
    have hlt := ofBytes_lt (address.bytes.drop 12)
    have hlength : (address.bytes.drop 12).length = 4 := by rw [List.length_drop, h]
    rw [List.take_append_drop, hlength] at hsplit
    rw [hlength] at hlt
    omega
  have hmapped : ofBytes (List.replicate 10 0 ++ [0xff, 0xff]) = 0xffff := by decide
  have hsame : ofBytes address.bytes / 2 ^ 32 = 0xffff ↔
      address.bytes.take 12 = List.replicate 10 0 ++ [0xff, 0xff] := by
    rw [hleading, ← hmapped]
    refine ⟨ofBytes_inj ?_, fun heq => by rw [heq]⟩
    rw [List.length_take, h]
    rfl
  rw [hsame]
  generalize address.bytes = bytes at h
  match bytes, h with
  | [_, _, _, _, _, _, _, _, _, _, _, _, _, _, _, _], _ => simp [List.replicate, and_assoc]

/-- **The addresses of `::ffff:0:0/96` are the IPv4 ones in them.** -/
theorem clientAddress_denotes (h : Denotes (trim text) family n) :
    ∃ address, clientAddress text = some address ∧ address.Valid ∧
      (address.family, ofBytes address.bytes) =
        if family = .six ∧ n / 2 ^ 32 = 0xffff then (.four, n % 2 ^ 32) else (family, n) := by
  obtain ⟨address, hparse, hvalid, rfl, rfl⟩ := parseIp_denotes h
  unfold clientAddress
  rw [hparse, Option.map_some]
  refine ⟨_, rfl, ?_⟩
  by_cases hsix : address.family = .six
  · have hlength : address.bytes.length = 16 := by
      rw [hvalid, hsix]
      rfl
    have hmapped := mapped_iff hlength
    by_cases hin : ofBytes address.bytes / 2 ^ 32 = 0xffff
    · rw [if_pos ⟨hsix, hmapped.mpr hin⟩, if_pos ⟨hsix, hin⟩]
      have hdrop : (address.bytes.drop 12).length = 4 := by rw [List.length_drop, hlength]
      refine ⟨hdrop, Prod.ext rfl ?_⟩
      have hsplit := ofBytes_append (address.bytes.take 12) (address.bytes.drop 12)
      have hlt := ofBytes_lt (address.bytes.drop 12)
      rw [List.take_append_drop, hdrop] at hsplit
      rw [hdrop] at hlt
      show ofBytes (address.bytes.drop 12) = _
      omega
    · rw [if_neg fun hall => hin (hmapped.mp hall.2), if_neg fun hall => hin hall.2]
      exact ⟨hvalid, rfl⟩
  · rw [if_neg fun hall => hsix hall.1, if_neg fun hall => hsix hall.1]
    exact ⟨hvalid, rfl⟩

end BunMail.Spf
