import BunMail.Lib.Fields

/-!
# IP addresses as text

The text forms of an IPv4 address (a dotted quad) and of an IPv6 address (eight groups, one run of
them possibly written `::`, the last two possibly as a dotted quad, a zone possibly after it), what
address a text spells, and the tests that accept these forms.
-/

namespace Ip

open Text

/-! ## Dotted quads -/

/-- A number up to 255, without leading zeros. -/
def isOctet (p : Text) : Bool := isNumeral p && decide (ofDecimal p ≤ 255)

/-- `isIPv4`. -/
def isIPv4 (s : Text) : Bool :=
  decide ((s.splitOn '.').length = 4) && (s.splitOn '.').all isOctet

/-- The number that a sequence of octets spells. -/
def ofOctets (octets : List ℕ) : ℕ := octets.foldl (fun n octet => 256 * n + octet) 0

/-- The address that a dotted quad spells. -/
def ipv4Value (s : Text) : ℕ := ofOctets ((s.splitOn '.').map ofDecimal)

/-! ## IPv6 -/

/-- A group: one to four hex digits, in either case. -/
def isGroup (p : Text) : Bool :=
  decide (p ≠ []) && decide (p.length ≤ 4) && p.all fun c => isHexDigit c.toLower

/-- The number that a group spells. -/
def groupValue (p : Text) : ℕ := p.foldl (fun n c => 16 * n + hexValue c.toLower) 0

/-- The groups that colon-separated pieces spell; the last piece may be a dotted quad. -/
def groupsOf : List Text → Option (List ℕ)
  | [] => some []
  | [p] =>
    if isGroup p then some [groupValue p]
    else if isIPv4 p then some [ipv4Value p / 65536, ipv4Value p % 65536]
    else none
  | p :: q :: rest =>
    if isGroup p then (groupsOf (q :: rest)).map fun g => groupValue p :: g else none

/-- **The text spells the eight groups.** -/
inductive Spells : Text → List ℕ → Prop
  | full {pieces : List Text} {g : List ℕ} (h : groupsOf pieces = some g) (hlen : g.length = 8) :
      Spells ([':'].intercalate pieces) g
  | compressed {head tail : List Text} {g : List ℕ} (hhead : head.all isGroup = true)
      (htail : groupsOf tail = some g) (hlen : head.length + g.length ≤ 7) :
      Spells ([':'].intercalate head ++ (':' :: ':' :: [':'].intercalate tail))
        (head.map groupValue ++ (List.replicate (8 - head.length - g.length) 0 ++ g))

/-- A character of a zone. -/
def isZoneChar (c : Char) : Bool := c.isAlphanum || c ∈ ['-', '.', ':']

/-- The text spells the eight groups, with or without a zone. -/
inductive SpellsIn : Text → List ℕ → Prop
  | plain {s : Text} {g : List ℕ} (h : Spells s g) : SpellsIn s g
  | zoned {s zone : Text} {g : List ℕ} (h : Spells s g) (hne : zone ≠ [])
      (hzone : zone.all isZoneChar = true) : SpellsIn (s ++ '%' :: zone) g

/-- What is on one side of a `::`. -/
def sidePieces (side : Text) : List Text := if side = [] then [] else side.splitOn ':'

/-- The address without its zone. -/
def isAddress6 (s : Text) : Bool :=
  ((groupsOf (s.splitOn ':')).any fun g => decide (g.length = 8)) ||
    (List.range s.length).any fun i =>
      decide ((s.drop i).take 2 = [':', ':']) && (sidePieces (s.take i)).all isGroup &&
        (groupsOf (sidePieces (s.drop (i + 2)))).any fun g =>
          decide ((sidePieces (s.take i)).length + g.length ≤ 7)

/-- `isIPv6`. -/
def isIPv6 (s : Text) : Bool :=
  let zone := s.dropWhile (· ≠ '%')
  isAddress6 (s.takeWhile (· ≠ '%')) &&
    (decide (zone = []) || decide (zone.tail ≠ []) && zone.tail.all isZoneChar)

/-- `isIP`. -/
def isIP (s : Text) : ℕ := if isIPv4 s then 4 else if isIPv6 s then 6 else 0

/-! ## The characters of an address -/

/-- A character of an address without its zone. -/
def isAddressChar (c : Char) : Bool := isHexDigit c.toLower || c ∈ [':', '.']

theorem isHexDigit_toLower_of_isDigit {c : Char} (h : c.isDigit = true) :
    isHexDigit c.toLower = true := by
  have hx := isHexDigit_of_isDigit h
  rw [toLower_of_isHexDigit hx]
  exact hx

theorem isDigit_of_isOctet {p : Text} (h : isOctet p = true) : ∀ c ∈ p, c.isDigit = true := by
  unfold isOctet isNumeral at h
  simp only [Bool.and_eq_true, List.all_eq_true] at h
  exact h.1.1.2

theorem isOctet_of_mem {s p : Text} (h : isIPv4 s = true) (hp : p ∈ s.splitOn '.') :
    isOctet p = true :=
  List.all_eq_true.mp (Bool.and_eq_true_iff.mp h).2 p hp

theorem mem_intercalate {c d : Char} {parts : List Text} (h : d ∈ [c].intercalate parts) :
    d = c ∨ ∃ p ∈ parts, d ∈ p := by
  induction parts with
  | nil => exact absurd h List.not_mem_nil
  | cons p parts ih =>
    cases parts with
    | nil =>
      rw [List.intercalate_singleton] at h
      exact .inr ⟨p, List.mem_cons_self, h⟩
    | cons q parts =>
      rw [List.intercalate_cons_cons] at h
      simp only [List.append_assoc, List.mem_append, List.mem_singleton] at h
      rcases h with h | h | h
      · exact .inr ⟨p, List.mem_cons_self, h⟩
      · exact .inl h
      · refine (ih h).imp_right ?_
        rintro ⟨p', hp', hd⟩
        exact ⟨p', List.mem_cons_of_mem _ hp', hd⟩

/-- A dotted quad is made of digits and dots. -/
theorem char_of_isIPv4 {s : Text} (h : isIPv4 s = true) : ∀ c ∈ s, c.isDigit = true ∨ c = '.' := by
  intro c hc
  rw [← (List.intercalate_splitOn '.' : ['.'].intercalate (s.splitOn '.') = s)] at hc
  rcases mem_intercalate hc with hdot | ⟨p, hp, hcp⟩
  · exact .inr hdot
  · exact .inl (isDigit_of_isOctet (isOctet_of_mem h hp) c hcp)

theorem addressChar_of_isIPv4 {s : Text} (h : isIPv4 s = true) :
    ∀ c ∈ s, isAddressChar c = true := by
  intro c hc
  unfold isAddressChar
  rcases char_of_isIPv4 h c hc with hd | rfl
  · rw [isHexDigit_toLower_of_isDigit hd, Bool.true_or]
  · decide

theorem hexDigit_of_isGroup {p : Text} (h : isGroup p = true) :
    ∀ c ∈ p, isHexDigit c.toLower = true := by
  unfold isGroup at h
  simp only [Bool.and_eq_true, List.all_eq_true] at h
  exact h.2

theorem addressChar_of_isGroup {p : Text} (h : isGroup p = true) :
    ∀ c ∈ p, isAddressChar c = true := by
  intro c hc
  unfold isAddressChar
  rw [hexDigit_of_isGroup h c hc, Bool.true_or]

/-- What colon-separated pieces with a meaning look like. -/
theorem groupsOf_eq_some {pieces : List Text} {g : List ℕ} (h : groupsOf pieces = some g) :
    (pieces.all isGroup = true ∧ g = pieces.map groupValue) ∨
      ∃ init quad, pieces = init ++ [quad] ∧ init.all isGroup = true ∧ isIPv4 quad = true ∧
        g = init.map groupValue ++ [ipv4Value quad / 65536, ipv4Value quad % 65536] := by
  induction pieces generalizing g with
  | nil =>
    obtain rfl := Option.some.inj h
    exact .inl ⟨rfl, rfl⟩
  | cons p pieces ih =>
    cases pieces with
    | nil =>
      unfold groupsOf at h
      split_ifs at h with hp hquad
      · obtain rfl := Option.some.inj h
        exact .inl ⟨by simp [hp], rfl⟩
      · obtain rfl := Option.some.inj h
        exact .inr ⟨[], p, rfl, rfl, hquad, rfl⟩
    | cons q rest =>
      unfold groupsOf at h
      split_ifs at h with hp
      obtain ⟨g', hg', rfl⟩ := Option.map_eq_some_iff.mp h
      rcases ih hg' with ⟨hall, rfl⟩ | ⟨init, quad, heq, hall, hquad, rfl⟩
      · refine .inl ⟨?_, rfl⟩
        rw [List.all_cons, hp, hall]
        rfl
      · refine .inr ⟨p :: init, quad, by rw [heq]; rfl, ?_, hquad, rfl⟩
        rw [List.all_cons, hp, hall]
        rfl

theorem addressChar_of_groupsOf {pieces : List Text} {g : List ℕ} (h : groupsOf pieces = some g) :
    ∀ p ∈ pieces, ∀ c ∈ p, isAddressChar c = true := by
  rcases groupsOf_eq_some h with ⟨hall, _⟩ | ⟨init, quad, rfl, hall, hquad, _⟩
  · exact fun p hp => addressChar_of_isGroup (List.all_eq_true.mp hall p hp)
  · intro p hp
    rcases List.mem_append.mp hp with hp | hp
    · exact addressChar_of_isGroup (List.all_eq_true.mp hall p hp)
    · rw [List.mem_singleton.mp hp]
      exact addressChar_of_isIPv4 hquad

theorem addressChar_of_spells {s : Text} {g : List ℕ} (h : Spells s g) :
    ∀ c ∈ s, isAddressChar c = true := by
  have hjoin : ∀ pieces : List Text, (∀ p ∈ pieces, ∀ c ∈ p, isAddressChar c = true) →
      ∀ c ∈ [':'].intercalate pieces, isAddressChar c = true := by
    intro pieces hp c hc
    rcases mem_intercalate hc with rfl | ⟨p, hmem, hcp⟩
    · decide
    · exact hp p hmem c hcp
  cases h with
  | full h hlen => exact hjoin _ (addressChar_of_groupsOf h)
  | compressed hhead htail hlen =>
    intro c hc
    simp only [List.mem_append, List.mem_cons] at hc
    rcases hc with hc | rfl | rfl | hc
    · exact hjoin _ (fun p hp => addressChar_of_isGroup (List.all_eq_true.mp hhead p hp)) c hc
    · decide
    · decide
    · exact hjoin _ (addressChar_of_groupsOf htail) c hc

/-! ## Pieces and their text -/

/-- A piece between two colons. -/
def IsPiece (p : Text) : Prop := p ≠ [] ∧ ':' ∉ p

theorem isPiece_of_isGroup {p : Text} (h : isGroup p = true) : IsPiece p := by
  refine ⟨?_, fun hc => absurd (hexDigit_of_isGroup h _ hc) (by decide)⟩
  unfold isGroup at h
  simp only [Bool.and_eq_true, decide_eq_true_eq] at h
  exact h.1.1

theorem isPiece_of_isIPv4 {p : Text} (h : isIPv4 p = true) : IsPiece p := by
  refine ⟨?_, fun hc => ?_⟩
  · rintro rfl
    revert h
    decide
  · rcases char_of_isIPv4 h _ hc with hd | hd
    · revert hd
      decide
    · revert hd
      decide

theorem isPiece_of_groupsOf {pieces : List Text} {g : List ℕ} (h : groupsOf pieces = some g) :
    ∀ p ∈ pieces, IsPiece p := by
  rcases groupsOf_eq_some h with ⟨hall, _⟩ | ⟨init, quad, rfl, hall, hquad, _⟩
  · exact fun p hp => isPiece_of_isGroup (List.all_eq_true.mp hall p hp)
  · intro p hp
    rcases List.mem_append.mp hp with hp | hp
    · exact isPiece_of_isGroup (List.all_eq_true.mp hall p hp)
    · rw [List.mem_singleton.mp hp]
      exact isPiece_of_isIPv4 hquad

theorem intercalate_ne_nil {pieces : List Text} (h : ∀ p ∈ pieces, IsPiece p) (hne : pieces ≠ []) :
    [':'].intercalate pieces ≠ [] := by
  obtain ⟨p, rest, rfl⟩ := List.exists_cons_of_ne_nil hne
  obtain ⟨c, p', hp⟩ := List.exists_cons_of_ne_nil (h p List.mem_cons_self).1
  rw [hp, List.intercalate_cons_cons_left]
  exact List.cons_ne_nil _ _

theorem sidePieces_intercalate {pieces : List Text} (h : ∀ p ∈ pieces, IsPiece p) :
    sidePieces ([':'].intercalate pieces) = pieces := by
  unfold sidePieces
  by_cases hne : pieces = []
  · rw [hne]
    rfl
  · rw [if_neg (intercalate_ne_nil h hne)]
    exact List.splitOn_intercalate ':' (fun p hp => (h p hp).2) hne

theorem intercalate_sidePieces (side : Text) : [':'].intercalate (sidePieces side) = side := by
  unfold sidePieces
  split_ifs with h
  · rw [h]
    rfl
  · exact List.intercalate_splitOn ':'

/-- **The test accepts what spells an address.** -/
theorem isAddress6_iff {s : Text} : isAddress6 s = true ↔ ∃ g, Spells s g := by
  unfold isAddress6
  simp only [Bool.or_eq_true, List.any_eq_true, Option.any_eq_true, Bool.and_eq_true,
    decide_eq_true_eq]
  constructor
  · rintro (⟨g, hg, hlen⟩ | ⟨i, _, ⟨hcolons, hhead⟩, g, hg, hlen⟩)
    · have hs := Spells.full hg hlen
      rw [List.intercalate_splitOn] at hs
      exact ⟨g, hs⟩
    · have hs := Spells.compressed hhead hg hlen
      rw [intercalate_sidePieces, intercalate_sidePieces] at hs
      have hcut : s.take i ++ (':' :: ':' :: s.drop (i + 2)) = s := by
        have hdrop : s.drop i = ':' :: ':' :: s.drop (i + 2) := by
          rw [← List.take_append_drop 2 (s.drop i), hcolons, List.drop_drop]
          rfl
        rw [← hdrop, List.take_append_drop]
      rw [hcut] at hs
      exact ⟨_, hs⟩
  · rintro ⟨g, h⟩
    cases h with
    | @full pieces g hg hlen =>
      left
      refine ⟨g, ?_, hlen⟩
      have hne : pieces ≠ [] := by
        rintro rfl
        obtain rfl := Option.some.inj hg
        cases hlen
      rw [List.splitOn_intercalate ':' (fun p hp => (isPiece_of_groupsOf hg p hp).2) hne]
      exact hg
    | @compressed head tail g hhead hg hlen =>
      right
      have hpieces : ∀ p ∈ head, IsPiece p :=
        fun p hp => isPiece_of_isGroup (List.all_eq_true.mp hhead p hp)
      refine ⟨([':'].intercalate head).length, ?_, ⟨?_, ?_⟩, g, ?_, ?_⟩
      · rw [List.mem_range, List.length_append, List.length_cons]
        omega
      · rw [List.drop_left]
        rfl
      · rw [List.take_left, sidePieces_intercalate hpieces]
        exact hhead
      · have hdrop : ([':'].intercalate head ++ (':' :: ':' :: [':'].intercalate tail)).drop
            (([':'].intercalate head).length + 2) = [':'].intercalate tail := by
          rw [← List.drop_drop, List.drop_left]
          rfl
        rw [hdrop, sidePieces_intercalate (isPiece_of_groupsOf hg)]
        exact hg
      · rw [List.take_left, sidePieces_intercalate hpieces]
        exact hlen

theorem percent_notMem_of_spells {s : Text} {g : List ℕ} (h : Spells s g) :
    ∀ c ∈ s, decide (c ≠ '%') = true := fun c hc => decide_eq_true fun hp => by
  subst hp
  exact absurd (addressChar_of_spells h _ hc) (by decide)

/-- **`isIPv6` accepts the spellings of an address.** -/
theorem isIPv6_iff {s : Text} : isIPv6 s = true ↔ ∃ g, SpellsIn s g := by
  unfold isIPv6
  simp only [Bool.and_eq_true, Bool.or_eq_true, decide_eq_true_eq, isAddress6_iff]
  constructor
  · rintro ⟨⟨g, hg⟩, hzone⟩
    rw [← List.takeWhile_append_dropWhile (p := fun c => decide (c ≠ '%')) (l := s)]
    rcases hzone with hnil | ⟨hne, hchars⟩
    · rw [hnil, List.append_nil]
      exact ⟨g, .plain hg⟩
    · cases hdrop : s.dropWhile (fun c => decide (c ≠ '%')) with
      | nil => exact absurd (by rw [hdrop]; rfl) hne
      | cons c zone =>
        have hc : c = '%' := by
          have hhead := List.head?_dropWhile_not (fun c => decide (c ≠ '%')) s
          rw [hdrop] at hhead
          simpa using hhead
        rw [hdrop] at hne hchars
        rw [hc]
        exact ⟨g, .zoned hg hne hchars⟩
  · rintro ⟨g, h⟩
    cases h with
    | plain h =>
      have hall := percent_notMem_of_spells h
      rw [List.takeWhile_eq_self_iff.mpr hall, List.dropWhile_eq_nil_iff.mpr hall]
      exact ⟨⟨g, h⟩, .inl rfl⟩
    | zoned h hne hzone =>
      have hall := percent_notMem_of_spells h
      rw [List.takeWhile_append_of_pos hall, List.dropWhile_append_of_pos hall]
      refine ⟨⟨g, ?_⟩, .inr ⟨hne, hzone⟩⟩
      rw [show List.takeWhile (fun c => decide (c ≠ '%')) ('%' :: _) = [] from rfl, List.append_nil]
      exact h

theorem not_isIPv4_of_colon {s : Text} (h : ':' ∈ s) : ¬ isIPv4 s = true := fun h4 => by
  rcases char_of_isIPv4 h4 _ h with hd | hd
  · revert hd
    decide
  · cases hd

theorem colon_mem_of_spells {s : Text} {g : List ℕ} (h : Spells s g) : ':' ∈ s := by
  cases h with
  | @full pieces g h hlen =>
    rcases pieces with _ | ⟨p, _ | ⟨q, rest⟩⟩
    · obtain rfl := Option.some.inj h
      cases hlen
    · rcases groupsOf_eq_some h with ⟨_, rfl⟩ | ⟨init, quad, heq, _, _, rfl⟩
      · cases hlen
      · obtain ⟨rfl, _⟩ := List.append_eq_singleton_iff.mp heq.symm |>.resolve_right (by simp)
        cases hlen
    · rw [List.intercalate_cons_cons]
      exact List.mem_append_left _ (List.mem_append_right _ List.mem_cons_self)
  | compressed hhead htail hlen => simp

theorem length_of_spells {s : Text} {g : List ℕ} (h : Spells s g) : g.length = 8 := by
  cases h with
  | full h hlen => exact hlen
  | compressed hhead htail hlen =>
    simp only [List.length_append, List.length_map, List.length_replicate]
    omega

end Ip
