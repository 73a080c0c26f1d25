import BunMail.Domains.SpfMacroStrings

/-!
# Directives and modifiers

`parseMechanism` reads exactly the directives.  The lengths at the end of `a` and `mx` are cut off by a
lazy match, which finds the one place where a domain-spec can end: none ends in a slash and digits.
-/

namespace BunMail.Spf

open Text Ip

/-! ## Numbers -/

theorem isNumeral_iff {s : Text} : isNumeral s = true ↔ s ≠ [] ∧ (∀ c ∈ s, c.isDigit = true) ∧
    (s = ['0'] ∨ s.head? ≠ some '0') := by
  unfold isNumeral
  simp only [Bool.and_eq_true, Bool.or_eq_true, decide_eq_true_eq, List.all_eq_true, and_assoc]

/-- **`cidrLength` reads exactly the lengths up to `max`.** -/
theorem cidrLength_some {digits : Text} {more max n : ℕ} (hmax : max < 10 ^ (more + 1)) :
    cidrLength (some digits) max = .ok n ↔ CidrDigits more max digits n := by
  unfold cidrLength
  dsimp only
  constructor
  · intro h
    by_cases hbad : ¬ isNumeral digits = true ∨ max < ofDecimal digits
    · rw [if_pos hbad] at h
      cases h
    · rw [if_neg hbad] at h
      rw [not_or, not_not, not_lt] at hbad
      obtain ⟨hnumeral, hle⟩ := hbad
      obtain ⟨hne, hdigits, hzero⟩ := isNumeral_iff.mp hnumeral
      refine ⟨hzero.imp_right fun hhead => ?_, (Except.ok.inj h).symm, (Except.ok.inj h) ▸ hle⟩
      have hlength : digits.length ≤ more + 1 := by
        rw [← decimal_ofDecimal hnumeral]
        exact length_decimal_le (Nat.succ_pos _) (hle.trans_lt hmax)
      obtain ⟨d, rest, rfl⟩ := List.exists_cons_of_ne_nil hne
      obtain ⟨hd, hrest⟩ := List.forall_mem_cons.mp hdigits
      exact ⟨d, rest, rfl, hd, fun heq => hhead (congrArg some heq), hrest,
        Nat.le_of_succ_le_succ hlength⟩
  · rintro ⟨hform, rfl, hle⟩
    have hnumeral : isNumeral digits = true := by
      rw [isNumeral_iff]
      rcases hform with rfl | ⟨d, rest, rfl, hd, hne, hrest, _⟩
      · exact ⟨List.cons_ne_nil _ _, List.forall_mem_singleton.mpr rfl, .inl rfl⟩
      · exact ⟨List.cons_ne_nil _ _, List.forall_mem_cons.mpr ⟨hd, hrest⟩,
          .inr fun heq => hne (Option.some.inj heq)⟩
    rw [if_neg]
    rw [not_or, not_not, not_lt]
    exact ⟨hnumeral, hle⟩

/-- Digits, one at least. -/
def IsDigits (digits : Text) : Prop := digits ≠ [] ∧ ∀ c ∈ digits, c.isDigit = true

theorem isDigits_of_cidr {more max n : ℕ} {digits : Text} (h : CidrDigits more max digits n) :
    IsDigits digits := by
  rcases h.form with rfl | ⟨d, rest, rfl, hd, _, hrest, _⟩
  · exact ⟨List.cons_ne_nil _ _, List.forall_mem_singleton.mpr rfl⟩
  · exact ⟨List.cons_ne_nil _ _, List.forall_mem_cons.mpr ⟨hd, hrest⟩⟩

/-! ## The lengths of `a` and `mx` -/

/-- A length as it is written. -/
def slashed (slashes : Text) (digits : Option Text) : Text := digits.elim [] (slashes ++ ·)

theorem lastLength?_eq_some {s : Text} {six : Option Text} :
    lastLength? s = some six ↔ s = slashed ['/', '/'] six ∧ ∀ digits ∈ six, IsDigits digits := by
  constructor
  · intro h
    unfold lastLength? at h
    split at h
    · obtain rfl := Option.some.inj h
      exact ⟨rfl, fun _ h => by cases h⟩
    · next digits =>
      split_ifs at h with hok
      obtain rfl := Option.some.inj h
      refine ⟨rfl, fun d hd => ?_⟩
      obtain rfl := Option.some.inj hd
      exact ⟨hok.1, List.all_eq_true.mp hok.2⟩
    · cases h
  · rintro ⟨rfl, hdigits⟩
    cases six with
    | none => rfl
    | some digits =>
      obtain ⟨hne, hall⟩ := hdigits digits rfl
      exact if_pos ⟨hne, List.all_eq_true.mpr hall⟩

theorem cutLength_spec (s : Text) : s = slashed ['/'] (cutLength s).1 ++ (cutLength s).2 ∧
    ∀ digits ∈ (cutLength s).1, IsDigits digits := by
  cases s with
  | nil => exact ⟨rfl, fun _ h => by cases h⟩
  | cons c s =>
    by_cases hc : c = '/'
    · subst hc
      by_cases hnil : s.takeWhile Char.isDigit = []
      · have hcut : cutLength ('/' :: s) = (none, '/' :: s) := if_pos hnil
        rw [hcut]
        exact ⟨rfl, fun _ h => by cases h⟩
      · have hcut : cutLength ('/' :: s) = (some (s.takeWhile Char.isDigit), s.dropWhile Char.isDigit) :=
          if_neg hnil
        rw [hcut]
        refine ⟨?_, fun digits hd => ?_⟩
        · show '/' :: s = '/' :: s.takeWhile Char.isDigit ++ s.dropWhile Char.isDigit
          rw [List.cons_append, List.takeWhile_append_dropWhile]
        · obtain rfl := Option.some.inj hd
          exact ⟨hnil, fun d hd => List.mem_takeWhile_imp hd⟩
    · have hcut : cutLength (c :: s) = (none, c :: s) := by
        unfold cutLength
        split
        · next heq => exact absurd (List.cons.inj heq).1 hc
        · rfl
      rw [hcut]
      exact ⟨rfl, fun _ h => by cases h⟩

theorem cutLength_slashed {four six : Option Text} (hfour : ∀ digits ∈ four, IsDigits digits)
    (hsix : ∀ digits ∈ six, IsDigits digits) :
    cutLength (slashed ['/'] four ++ slashed ['/', '/'] six) = (four, slashed ['/', '/'] six) := by
  have hhead : ∀ c ∈ (slashed ['/', '/'] six).head?, c.isDigit = false := fun c hc => by
    cases six with
    | none => cases hc
    | some digits =>
      cases hc
      rfl
  cases four with
  | none =>
    cases six with
    | none => rfl
    | some digits => rfl
  | some digits =>
    obtain ⟨hne, hall⟩ := hfour digits rfl
    obtain ⟨htake, hdrop⟩ := cut_append hall hhead
    have hcut : cutLength ('/' :: (digits ++ slashed ['/', '/'] six)) =
        (some ((digits ++ slashed ['/', '/'] six).takeWhile Char.isDigit),
          (digits ++ slashed ['/', '/'] six).dropWhile Char.isDigit) := if_neg (by rwa [htake])
    rw [htake, hdrop] at hcut
    exact hcut

/-- **The lengths at the end.** -/
theorem dualCidr?_eq_some {s : Text} {four six : Option Text} :
    dualCidr? s = some (four, six) ↔ s = slashed ['/'] four ++ slashed ['/', '/'] six ∧
      (∀ digits ∈ four, IsDigits digits) ∧ ∀ digits ∈ six, IsDigits digits := by
  unfold dualCidr?
  rw [Option.map_eq_some_iff]
  constructor
  · rintro ⟨six', hlast, heq⟩
    obtain ⟨hfour, rfl⟩ := Prod.mk.inj heq
    obtain ⟨hcut, hdigits⟩ := cutLength_spec s
    obtain ⟨hrest, hsix⟩ := lastLength?_eq_some.mp hlast
    rw [hfour, hrest] at hcut
    rw [hfour] at hdigits
    exact ⟨hcut, hdigits, hsix⟩
  · rintro ⟨rfl, hfour, hsix⟩
    rw [cutLength_slashed hfour hsix]
    exact ⟨six, lastLength?_eq_some.mpr ⟨rfl, hsix⟩, rfl⟩

/-! ## Where a domain-spec ends -/

/-- A character of a length. -/
def IsLengthChar (c : Char) : Prop := c = '/' ∨ c.isDigit = true

theorem not_isLengthChar {c : Char} (hslash : c ≠ '/') (hdigit : c.isDigit = false) : ¬ IsLengthChar c := by
  rintro (rfl | h)
  · exact hslash rfl
  · rw [hdigit] at h
    cases h

theorem lengthChar_of_dualCidr? {s : Text} {cidr : Option Text × Option Text}
    (h : dualCidr? s = some cidr) : (∀ c ∈ s, IsLengthChar c) ∧ ∀ c ∈ s.head?, c = '/' := by
  obtain ⟨four, six⟩ := cidr
  obtain ⟨rfl, hfour, hsix⟩ := dualCidr?_eq_some.mp h
  have hslashed : ∀ {slashes : Text} {digits : Option Text}, (∀ c ∈ slashes, c = '/') →
      (∀ d ∈ digits, IsDigits d) → ∀ c ∈ slashed slashes digits, IsLengthChar c := by
    intro slashes digits hslashes hdigits c hc
    cases digits with
    | none => cases hc
    | some digits =>
      rcases List.mem_append.mp hc with hc | hc
      · exact .inl (hslashes c hc)
      · exact .inr ((hdigits digits rfl).2 c hc)
  constructor
  · intro c hc
    rcases List.mem_append.mp hc with hc | hc
    · exact hslashed (fun c hc => List.mem_singleton.mp hc) hfour c hc
    · exact hslashed (fun c hc => by simpa using hc) hsix c hc
  · intro c hc
    cases four with
    | some digits => cases hc; rfl
    | none =>
      cases six with
      | none => cases hc
      | some digits => cases hc; rfl

theorem MacroExpand.last {exp : Bool} {e : Text} {token : MacroToken} (h : MacroExpand exp e token) :
    ∃ before c, e = before ++ [c] ∧ ¬ IsLengthChar c := by
  cases h with
  | @braces c letter digits r delimiters =>
    refine ⟨'%' :: '\x7b' :: c :: (digits ++ (r ++ delimiters)), '\x7d', ?_, not_isLengthChar (by decide) rfl⟩
    simp only [List.cons_append, List.append_assoc]
  | percent => exact ⟨['%'], '%', rfl, not_isLengthChar (by decide) rfl⟩
  | space => exact ⟨['%'], '_', rfl, not_isLengthChar (by decide) rfl⟩
  | encoded => exact ⟨['%'], '-', rfl, not_isLengthChar (by decide) rfl⟩

/-- **No domain-spec ends in a slash and digits.** -/
theorem DomainSpec.not_length {s a b : Text} {tokens : List MacroToken} (h : DomainSpec s tokens)
    (hs : s = a ++ '/' :: b) (hb : ∀ c ∈ b, IsLengthChar c) : False := by
  obtain ⟨_, body, stop, hsplit, _, hstop⟩ := h
  have hchars : ∀ c ∈ '/' :: b, IsLengthChar c := List.forall_mem_cons.mpr ⟨.inl rfl, hb⟩
  have hdot : ¬ IsLengthChar '.' := not_isLengthChar (by decide) rfl
  -- what ends in a character of no length is no suffix of the slash and digits
  have hlast : ∀ (before : Text) (c : Char), s = before ++ [c] → IsLengthChar c := by
    intro before c heq
    have hmem : s.getLast? = some c := by rw [heq, List.getLast?_concat]
    rw [hs, List.getLast?_append_of_ne_nil _ (List.cons_ne_nil _ _)] at hmem
    exact hchars c (List.mem_of_getLast? hmem)
  cases hstop with
  | expand he =>
    obtain ⟨before, c, rfl, hc⟩ := he.last
    refine hc (hlast (body ++ before) c ?_)
    rw [hsplit, List.append_assoc]
  | @label label htop =>
    rw [hs, List.append_eq_append_iff] at hsplit
    rcases hsplit with ⟨z, _, hsuffix⟩ | ⟨z, _, hsuffix⟩
    · exact hdot (hchars '.' (hsuffix ▸ List.mem_append_right _ List.mem_cons_self))
    · have hslash : '/' ∈ '.' :: label := hsuffix ▸ List.mem_append_right _ List.mem_cons_self
      rcases List.mem_cons.mp hslash with heq | hmem
      · cases heq
      · exact absurd (char_of_toplabel htop _ hmem) (by decide)
  | @dotted label htop =>
    refine hdot (hlast (body ++ '.' :: label) '.' ?_)
    rw [hsplit]
    simp only [List.append_assoc, List.cons_append]

theorem lazySpec?_spec {s spec : Text} {cidr : Option Text × Option Text}
    (h : lazySpec? s = some (spec, cidr)) : ∃ stop, s = spec ++ stop ∧ dualCidr? stop = some cidr := by
  induction s generalizing spec with
  | nil =>
    obtain ⟨cidr', hcidr, heq⟩ := Option.map_eq_some_iff.mp h
    obtain ⟨rfl, rfl⟩ := Prod.mk.inj heq
    exact ⟨[], rfl, hcidr⟩
  | cons c s ih =>
    unfold lazySpec? at h
    cases hdual : dualCidr? (c :: s) with
    | some cidr' =>
      rw [hdual] at h
      obtain ⟨rfl, rfl⟩ := Prod.mk.inj (Option.some.inj h)
      exact ⟨c :: s, rfl, hdual⟩
    | none =>
      rw [hdual] at h
      obtain ⟨⟨spec', cidr'⟩, hfound, heq⟩ := Option.map_eq_some_iff.mp h
      obtain ⟨rfl, rfl⟩ := Prod.mk.inj heq
      obtain ⟨stop, rfl, hstop⟩ := ih hfound
      exact ⟨stop, rfl, hstop⟩

/-- The lazy match stops where nothing before can. -/
theorem lazySpec?_append {spec stop : Text} {cidr : Option Text × Option Text}
    (h : dualCidr? stop = some cidr)
    (hspec : ∀ a b, spec = a ++ b → b ≠ [] → dualCidr? (b ++ stop) = none) :
    lazySpec? (spec ++ stop) = some (spec, cidr) := by
  induction spec with
  | nil =>
    rw [List.nil_append]
    cases stop with
    | nil =>
      unfold lazySpec?
      rw [h]
      rfl
    | cons c stop =>
      unfold lazySpec?
      rw [h]
  | cons c spec ih =>
    have hnone := hspec [] (c :: spec) rfl (List.cons_ne_nil _ _)
    have hrest := ih fun a b heq hne => hspec (c :: a) b (by rw [heq]; rfl) hne
    rw [List.cons_append] at hnone ⊢
    unfold lazySpec?
    rw [hnone, hrest]
    rfl

/-- **The lazy match finds the domain-spec.** -/
theorem lazySpec?_domainSpec {spec stop : Text} {tokens : List MacroToken}
    {cidr : Option Text × Option Text} (hspec : DomainSpec spec tokens)
    (h : dualCidr? stop = some cidr) : lazySpec? (spec ++ stop) = some (spec, cidr) := by
  refine lazySpec?_append h fun a b heq hne => ?_
  cases hdual : dualCidr? (b ++ stop) with
  | none => rfl
  | some cidr' =>
    obtain ⟨hchars, hhead⟩ := lengthChar_of_dualCidr? hdual
    obtain ⟨c, b, rfl⟩ := List.exists_cons_of_ne_nil hne
    obtain rfl := hhead c rfl
    exact (hspec.not_length heq fun d hd =>
      hchars d (List.mem_append_left _ (List.mem_cons_of_mem _ hd))).elim

/-! ## What a mechanism holds -/

/-- An optional length is read. -/
theorem optionalLength_iff {slashes text : Text} {more max n : ℕ} (hmax : max < 10 ^ (more + 1)) :
    OptionalLength slashes more max text n ↔
      ∃ digits, text = slashed slashes digits ∧ (∀ d ∈ digits, IsDigits d) ∧
        cidrLength digits max = .ok n := by
  constructor
  · intro h
    cases h with
    | absent => exact ⟨none, rfl, fun _ h => (by cases h), rfl⟩
    | @present digits n h =>
      refine ⟨some digits, rfl, fun d hd => ?_, (cidrLength_some hmax).mpr h⟩
      obtain rfl := Option.some.inj hd
      exact isDigits_of_cidr h
  · rintro ⟨digits, rfl, _, hlength⟩
    cases digits with
    | none =>
      obtain rfl := Except.ok.inj hlength
      exact .absent
    | some digits => exact .present ((cidrLength_some hmax).mp hlength)

theorem map_eq_ok {α β : Type} {p : Except SpfError α} {f : α → β} {b : β} :
    p.map f = .ok b ↔ ∃ a, p = .ok a ∧ f a = b := by
  cases p with
  | error e => exact ⟨fun h => (by cases h), fun ⟨_, h, _⟩ => (by cases h)⟩
  | ok a =>
    refine ⟨fun h => ⟨a, rfl, Except.ok.inj h⟩, ?_⟩
    rintro ⟨_, h, rfl⟩
    cases h
    rfl

theorem bind_eq_ok {α β : Type} {p : Except SpfError α} {f : α → Except SpfError β} {b : β} :
    p >>= f = .ok b ↔ ∃ a, p = .ok a ∧ f a = .ok b := by
  cases p with
  | error e => exact ⟨fun h => (by cases h), fun ⟨_, h, _⟩ => (by cases h)⟩
  | ok a =>
    refine ⟨fun h => ⟨a, rfl, h⟩, ?_⟩
    rintro ⟨_, h, h'⟩
    cases h
    exact h'

section Kinds

variable {term rest : Text} {out : MechanismKind}

/-- **What `a` and `mx` hold.** -/
theorem parseDual_eq_ok {kind : Option (List MacroToken) → ℕ → ℕ → MechanismKind} :
    parseDual term rest kind = .ok out ↔ ∃ spec four six tokens cidr4 cidr6,
      rest = spec ++ (four ++ six) ∧ OptionalSpec spec tokens ∧ OptionalLength ['/'] 1 32 four cidr4 ∧
        OptionalLength ['/', '/'] 2 128 six cidr6 ∧ out = kind tokens cidr4 cidr6 := by
  constructor
  · intro h
    unfold parseDual at h
    cases hterm : dualCidrTerm? rest with
    | none =>
      rw [hterm] at h
      cases h
    | some pieces =>
      obtain ⟨spec?, four?, six?⟩ := pieces
      rw [hterm] at h
      obtain ⟨tokens, htokens, h⟩ := bind_eq_ok.mp h
      obtain ⟨cidr4, hcidr4, h⟩ := bind_eq_ok.mp h
      obtain ⟨cidr6, hcidr6, h⟩ := bind_eq_ok.mp h
      obtain rfl := Except.ok.inj h
      obtain ⟨spec, stop, rfl, hspec, hstop⟩ : ∃ spec stop, rest = spec ++ stop ∧
          OptionalSpec spec tokens ∧ dualCidr? stop = some (four?, six?) := by
        unfold dualCidrTerm? at hterm
        split at hterm
        · obtain ⟨⟨text, cidr⟩, hlazy, heq⟩ := Option.map_eq_some_iff.mp hterm
          obtain ⟨rfl, rfl⟩ := Prod.mk.inj heq
          obtain ⟨stop, rfl, hstop⟩ := lazySpec?_spec hlazy
          obtain ⟨tokens, hparse, rfl⟩ := map_eq_ok.mp htokens
          exact ⟨':' :: text, stop, rfl, .present (parseDomainSpec_eq_ok.mp hparse), hstop⟩
        · obtain ⟨cidr, hcidr, heq⟩ := Option.map_eq_some_iff.mp hterm
          obtain ⟨rfl, rfl⟩ := Prod.mk.inj heq
          obtain rfl := Except.ok.inj htokens
          exact ⟨[], _, rfl, .absent, hcidr⟩
      obtain ⟨rfl, hfour, hsix⟩ := dualCidr?_eq_some.mp hstop
      exact ⟨spec, _, _, tokens, cidr4, cidr6, rfl, hspec,
        (optionalLength_iff (by decide)).mpr ⟨four?, rfl, hfour, hcidr4⟩,
        (optionalLength_iff (by decide)).mpr ⟨six?, rfl, hsix, hcidr6⟩, rfl⟩
  · rintro ⟨spec, four, six, tokens, cidr4, cidr6, rfl, hspec, hfour, hsix, rfl⟩
    obtain ⟨four?, rfl, hfour, hcidr4⟩ := (optionalLength_iff (by decide)).mp hfour
    obtain ⟨six?, rfl, hsix, hcidr6⟩ := (optionalLength_iff (by decide)).mp hsix
    have hdual := dualCidr?_eq_some.mpr ⟨rfl, hfour, hsix⟩
    generalize slashed ['/'] four? ++ slashed ['/', '/'] six? = stop at hdual
    have hterm : ∃ text?, dualCidrTerm? (spec ++ stop) = some (text?, four?, six?) ∧
        text?.elim (.ok none) (fun text => (parseDomainSpec text).map some) = .ok tokens := by
      cases hspec with
      | absent =>
        refine ⟨none, ?_, rfl⟩
        rw [List.nil_append]
        unfold dualCidrTerm?
        split
        · next s _ => exact absurd ((lengthChar_of_dualCidr? hdual).2 ':' rfl) (by decide)
        · rw [hdual]
          rfl
      | @present text tokens h =>
        refine ⟨some text, ?_, map_eq_ok.mpr ⟨tokens, parseDomainSpec_eq_ok.mpr h, rfl⟩⟩
        have hlazy := lazySpec?_domainSpec h hdual
        show (lazySpec? (text ++ stop)).map _ = _
        rw [hlazy]
        rfl
    obtain ⟨text?, hterm, htokens⟩ := hterm
    unfold parseDual
    rw [hterm]
    exact bind_eq_ok.mpr ⟨tokens, htokens, bind_eq_ok.mpr ⟨cidr4, hcidr4,
      bind_eq_ok.mpr ⟨cidr6, hcidr6, rfl⟩⟩⟩

/-- **What `include` and `exists` hold.** -/
theorem parseNeeded_eq_ok {name : Text} {kind : List MacroToken → MechanismKind} :
    parseNeeded term name rest kind = .ok out ↔
      ∃ spec tokens, rest = ':' :: spec ∧ DomainSpec spec tokens ∧ out = kind tokens := by
  constructor
  · intro h
    unfold parseNeeded at h
    split at h
    · next spec =>
      obtain ⟨tokens, hspec, rfl⟩ := map_eq_ok.mp h
      exact ⟨spec, tokens, rfl, parseDomainSpec_eq_ok.mp hspec, rfl⟩
    · cases h
  · rintro ⟨spec, tokens, rfl, hspec, rfl⟩
    exact map_eq_ok.mpr ⟨tokens, parseDomainSpec_eq_ok.mpr hspec, rfl⟩

/-- **What `ptr` holds.** -/
theorem parsePtr_eq_ok : parsePtr term rest = .ok out ↔
    ∃ tokens, OptionalSpec rest tokens ∧ out = .ptr tokens := by
  constructor
  · intro h
    unfold parsePtr at h
    split at h
    · exact ⟨none, .absent, (Except.ok.inj h).symm⟩
    · next spec =>
      obtain ⟨tokens, hspec, rfl⟩ := map_eq_ok.mp h
      exact ⟨some tokens, .present (parseDomainSpec_eq_ok.mp hspec), rfl⟩
    · cases h
  · rintro ⟨tokens, hspec, rfl⟩
    cases hspec with
    | absent => rfl
    | @present spec tokens h => exact map_eq_ok.mpr ⟨tokens, parseDomainSpec_eq_ok.mpr h, rfl⟩

theorem cutSlash_spec (s : Text) : s = (cutSlash s).1 ++ slashed ['/'] (cutSlash s).2 ∧
    '/' ∉ (cutSlash s).1 := by
  have hcut := List.takeWhile_append_dropWhile (p := fun c => decide (c ≠ '/')) (l := s)
  refine ⟨?_, fun hmem => absurd (List.mem_takeWhile_imp hmem) (by decide)⟩
  unfold cutSlash
  dsimp only
  cases hdrop : s.dropWhile (fun c => decide (c ≠ '/')) with
  | nil =>
    rw [hdrop] at hcut
    exact hcut.symm
  | cons c digits =>
    have hc : c = '/' := by
      have hhead := List.head?_dropWhile_not (fun c => decide (c ≠ '/')) s
      rw [hdrop] at hhead
      simpa using hhead
    rw [hdrop, hc] at hcut
    exact hcut.symm

theorem cutSlash_append {text : Text} {digits : Option Text} (h : '/' ∉ text) :
    cutSlash (text ++ slashed ['/'] digits) = (text, digits) := by
  have htext : ∀ c ∈ text, decide (c ≠ '/') = true := fun c hc =>
    decide_eq_true fun heq => h (heq ▸ hc)
  have hhead : ∀ c ∈ (slashed ['/'] digits).head?, decide (c ≠ '/') = false := fun c hc => by
    cases digits with
    | none => cases hc
    | some digits =>
      cases hc
      rfl
  obtain ⟨htake, hdrop⟩ := cut_append htext hhead
  unfold cutSlash
  rw [htake, hdrop]
  cases digits with
  | none => rfl
  | some digits => rfl

theorem ipTerm?_eq_some {text : Text} {digits : Option Text} :
    ipTerm? rest = some (text, digits) ↔
      rest = ':' :: (text ++ slashed ['/'] digits) ∧ '/' ∉ text := by
  constructor
  · intro h
    unfold ipTerm? at h
    split at h
    · next s =>
      have hcut := cutSlash_spec s
      rw [Option.some.inj h] at hcut
      exact ⟨congrArg _ hcut.1, hcut.2⟩
    · cases h
  · rintro ⟨rfl, hslash⟩
    exact congrArg some (cutSlash_append hslash)

/-- **What `ip4` and `ip6` hold.** -/
theorem parseNetwork_eq_ok {valid : Text → IpAddress → Bool} {more max : ℕ}
    {kind : IpAddress → ℕ → MechanismKind} (hmax : max < 10 ^ (more + 1)) :
    parseNetwork term rest valid max kind = .ok out ↔ ∃ text cidr address n,
      rest = ':' :: (text ++ cidr) ∧ '/' ∉ text ∧ parseIp text = some address ∧
        valid text address = true ∧ OptionalLength ['/'] more max cidr n ∧ out = kind address n := by
  constructor
  · intro h
    unfold parseNetwork at h
    split at h
    · cases h
    · next text digits hterm =>
      split at h
      · cases h
      · next address haddress =>
        split_ifs at h with hvalid
        · obtain ⟨n, hlength, rfl⟩ := map_eq_ok.mp h
          obtain ⟨rfl, hslash⟩ := ipTerm?_eq_some.mp hterm
          refine ⟨text, _, address, n, rfl, hslash, haddress, hvalid, ?_, rfl⟩
          cases digits with
          | none =>
            obtain rfl := Except.ok.inj hlength
            exact .absent
          | some digits => exact .present ((cidrLength_some hmax).mp hlength)
        · cases h
  · rintro ⟨text, cidr, address, n, rfl, hslash, haddress, hvalid, hcidr, rfl⟩
    obtain ⟨digits, rfl, _, hlength⟩ := (optionalLength_iff hmax).mp hcidr
    unfold parseNetwork
    rw [ipTerm?_eq_some.mpr ⟨rfl, hslash⟩]
    dsimp only
    rw [haddress]
    dsimp only
    rw [if_pos hvalid]
    exact map_eq_ok.mpr ⟨n, hlength, rfl⟩

end Kinds

/-! ## Networks -/

theorem isQnum_iff {s : Text} : isQnum s = true ↔ Qnum s := by
  constructor
  · intro h
    unfold isQnum at h
    split at h
    · simp only [Bool.or_eq_true, Bool.and_eq_true, beq_iff_eq, decide_eq_true_eq] at h
      rcases h with (⟨⟨⟨rfl, rfl⟩, hlow⟩, hhigh⟩ | ⟨⟨⟨rfl, hlow⟩, hhigh⟩, hc⟩) | ⟨⟨rfl, hb⟩, hc⟩
      · exact .high ⟨hlow, hhigh⟩
      · exact .low ⟨hlow, hhigh⟩ hc
      · exact .hundred hb hc
    · simp only [Bool.and_eq_true, bne_iff_ne] at h
      exact .two h.1.1 h.1.2 h.2
    · exact .one h
    · cases h
  · intro h
    unfold isQnum
    cases h with
    | one ha => exact ha
    | two ha hne hb =>
      simp only [Bool.and_eq_true, bne_iff_ne]
      exact ⟨⟨ha, hne⟩, hb⟩
    | hundred hb hc =>
      simp only [Bool.or_eq_true, Bool.and_eq_true, beq_iff_eq, decide_eq_true_eq]
      exact .inr ⟨⟨trivial, hb⟩, hc⟩
    | low hb hc =>
      simp only [Bool.or_eq_true, Bool.and_eq_true, beq_iff_eq, decide_eq_true_eq]
      exact .inl (.inr ⟨⟨⟨trivial, hb.1⟩, hb.2⟩, hc⟩)
    | high hc =>
      simp only [Bool.or_eq_true, Bool.and_eq_true, beq_iff_eq, decide_eq_true_eq]
      exact .inl (.inl ⟨⟨⟨trivial, trivial⟩, hc.1⟩, hc.2⟩)

theorem eq_digitChar {c : Char} (h : c.isDigit = true) : ∃ n : Fin 10, c = Nat.digitChar n := by
  obtain ⟨hlt, heq⟩ := digitChar_of_isDigit h
  exact ⟨⟨_, hlt⟩, heq.symm⟩

theorem isDigit_of_le {c d : Char} (h : '0' ≤ c ∧ c ≤ d) (hd : d ≤ '9') : c.isDigit = true := by
  unfold Char.isDigit
  rw [Bool.and_eq_true, decide_eq_true_eq, decide_eq_true_eq]
  exact ⟨h.1, le_trans (show c.val ≤ d.val from h.2) hd⟩

/-- A `qnum` is an octet. -/
theorem isOctet_of_qnum {s : Text} (h : Qnum s) : isOctet s = true := by
  cases h with
  | one ha =>
    obtain ⟨a, rfl⟩ := eq_digitChar ha
    revert a
    decide
  | two ha hne hb =>
    obtain ⟨a, rfl⟩ := eq_digitChar ha
    obtain ⟨b, rfl⟩ := eq_digitChar hb
    revert a b
    decide +kernel
  | hundred hb hc =>
    obtain ⟨b, rfl⟩ := eq_digitChar hb
    obtain ⟨c, rfl⟩ := eq_digitChar hc
    revert b c
    decide +kernel
  | low hb hc =>
    obtain ⟨b, rfl⟩ := eq_digitChar (isDigit_of_le hb (by decide))
    obtain ⟨c, rfl⟩ := eq_digitChar hc
    revert b c
    decide +kernel
  | high hc =>
    obtain ⟨c, rfl⟩ := eq_digitChar (isDigit_of_le hc (by decide))
    revert c
    decide +kernel

theorem dot_notMem_qnum {s : Text} (h : Qnum s) : '.' ∉ s := fun hmem =>
  absurd (isDigit_of_isOctet (isOctet_of_qnum h) _ hmem) (by decide)

theorem isIp4Network_iff {s : Text} : isIp4Network s = true ↔ Ip4Network s := by
  unfold isIp4Network
  rw [Bool.and_eq_true, decide_eq_true_iff, List.all_eq_true]
  constructor
  · rintro ⟨hlength, hall⟩
    obtain ⟨a, b, c, d, hparts⟩ : ∃ a b c d, s.splitOn '.' = [a, b, c, d] := by
      rcases hsplit : s.splitOn '.' with _ | ⟨a, _ | ⟨b, _ | ⟨c, _ | ⟨d, _ | ⟨e, rest⟩⟩⟩⟩⟩
      all_goals rw [hsplit] at hlength
      all_goals first | exact ⟨a, b, c, d, rfl⟩ | (simp at hlength)
    rw [hparts] at hall
    have hs : s = ['.'].intercalate [a, b, c, d] := by rw [← hparts, List.intercalate_splitOn]
    rw [hs]
    exact .quad (isQnum_iff.mp (hall a (by simp))) (isQnum_iff.mp (hall b (by simp)))
      (isQnum_iff.mp (hall c (by simp))) (isQnum_iff.mp (hall d (by simp)))
  · rintro ⟨ha, hb, hc, hd⟩
    have hparts : ∀ part ∈ [_, _, _, _], Qnum part := List.forall_mem_cons.mpr ⟨ha,
      List.forall_mem_cons.mpr ⟨hb, List.forall_mem_cons.mpr ⟨hc, List.forall_mem_singleton.mpr hd⟩⟩⟩
    rw [List.splitOn_intercalate '.' (fun part hp => dot_notMem_qnum (hparts part hp))
      (List.cons_ne_nil _ _)]
    exact ⟨rfl, fun part hp => isQnum_iff.mpr (hparts part hp)⟩

theorem ip4Network_isIPv4 {s : Text} (h : isIp4Network s = true) : isIPv4 s = true := by
  unfold isIp4Network at h
  unfold isIPv4
  rw [Bool.and_eq_true, List.all_eq_true] at h ⊢
  exact ⟨h.1, fun part hp => isOctet_of_qnum (isQnum_iff.mp (h.2 part hp))⟩

/-- The networks of `ip4`. -/
theorem ip4_valid {s : Text} {address : IpAddress} (h : parseIp s = some address) :
    (isIp4Network s && decide (address.family = .four)) = true ↔ Ip4Network s := by
  rw [Bool.and_eq_true, decide_eq_true_iff, isIp4Network_iff]
  refine ⟨And.left, fun hs => ⟨hs, ?_⟩⟩
  unfold parseIp at h
  rw [if_pos (ip4Network_isIPv4 (isIp4Network_iff.mpr hs))] at h
  obtain rfl := Option.some.inj h
  rfl

/-- The networks of `ip6`. -/
theorem ip6_valid {s : Text} {address : IpAddress} (h : parseIp s = some address) :
    decide (address.family = .six) = true ↔ ∃ groups, Spells s groups := by
  rw [decide_eq_true_iff]
  unfold parseIp at h
  split_ifs at h with hfour hsix
  · obtain rfl := Option.some.inj h
    refine ⟨fun h => (by cases h), ?_⟩
    rintro ⟨groups, hspells⟩
    exact absurd hfour (not_isIPv4_of_colon (colon_mem_of_spells hspells))
  · obtain rfl := Option.some.inj h
    refine ⟨fun _ => ?_, fun _ => rfl⟩
    rw [not_or, not_not] at hsix
    obtain ⟨groups, hspells⟩ := isIPv6_iff.mp hsix.2
    cases hspells with
    | plain hspells => exact ⟨groups, hspells⟩
    | zoned => exact absurd (List.mem_append_right _ List.mem_cons_self) hsix.1

theorem slash_notMem_of_isIPv4 {s : Text} (h : isIPv4 s = true) : '/' ∉ s := fun hmem => by
  rcases char_of_isIPv4 h _ hmem with hd | hd
  · revert hd
    decide
  · cases hd

theorem slash_notMem_of_spells {s : Text} {groups : List ℕ} (h : Spells s groups) : '/' ∉ s :=
  fun hmem => absurd (addressChar_of_spells h _ hmem) (by decide)

/-! ## Mechanisms -/

/-- What follows a mechanism's name. -/
def StartsRest (rest : Text) : Prop := ∀ c ∈ rest.head?, c = ':' ∨ c = '/'

theorem isAlphanum_of_toLower {c : Char} (h : c.toLower.isAlphanum = true) : c.isAlphanum = true := by
  by_cases hu : c.isUpper = true
  · unfold Char.isAlphanum Char.isAlpha
    rw [hu]
    rfl
  · rwa [Char.toLower_eq_of_not_isUpper hu] at h

/-- A name is made of letters and digits. -/
theorem isAlphanum_of_named {name : Text} {of : String} (h : Named name of)
    (hof : of.toList.all Char.isAlphanum = true) : ∀ c ∈ name, c.isAlphanum = true := by
  intro c hc
  refine isAlphanum_of_toLower (List.all_eq_true.mp hof _ ?_)
  rw [← h]
  exact List.mem_map_of_mem hc

theorem ne_nil_of_named {name : Text} {of : String} (h : Named name of) (hof : of.toList ≠ []) :
    name ≠ [] := by
  rintro rfl
  exact hof h.symm

theorem mechanism_of_parseKind {term name rest : Text} {kind : MechanismKind}
    (h : parseKind term name rest = .ok kind) : Mechanism (name ++ rest) kind := by
  unfold parseKind at h
  split_ifs at h with hall hrest hinclude hexists ha hmx hptr hip4 hip6
  · cases h
  · obtain rfl := Except.ok.inj h
    rw [not_not.mp hrest, List.append_nil]
    exact .all hall
  · obtain ⟨spec, tokens, rfl, hspec, rfl⟩ := parseNeeded_eq_ok.mp h
    exact .include_ hinclude hspec
  · obtain ⟨spec, tokens, rfl, hspec, rfl⟩ := parseNeeded_eq_ok.mp h
    exact .exists_ hexists hspec
  · obtain ⟨spec, four, six, tokens, cidr4, cidr6, rfl, hspec, hfour, hsix, rfl⟩ :=
      parseDual_eq_ok.mp h
    exact .a ha hspec hfour hsix
  · obtain ⟨spec, four, six, tokens, cidr4, cidr6, rfl, hspec, hfour, hsix, rfl⟩ :=
      parseDual_eq_ok.mp h
    exact .mx hmx hspec hfour hsix
  · obtain ⟨tokens, hspec, rfl⟩ := parsePtr_eq_ok.mp h
    exact .ptr hptr hspec
  · obtain ⟨text, cidr, address, n, rfl, _, haddress, hvalid, hcidr, rfl⟩ :=
      (@parseNetwork_eq_ok _ _ _ _ 1 _ _ (by decide)).mp h
    exact .ip4 hip4 ((ip4_valid haddress).mp hvalid) haddress hcidr
  · obtain ⟨text, cidr, address, n, rfl, _, haddress, hvalid, hcidr, rfl⟩ :=
      (@parseNetwork_eq_ok _ _ _ _ 2 _ _ (by decide)).mp h
    obtain ⟨groups, hspells⟩ := (ip6_valid haddress).mp hvalid
    exact .ip6 hip6 hspells haddress hcidr
  · cases h

theorem startsRest_length {slashes text : Text} {more max n : ℕ} (hne : slashes ≠ [])
    (hslashes : ∀ c ∈ slashes, c = '/') (h : OptionalLength slashes more max text n) :
    StartsRest text := by
  intro c hc
  cases h with
  | absent => cases hc
  | present h =>
    rw [List.head?_append_of_ne_nil _ hne] at hc
    exact .inr (hslashes c (List.mem_of_mem_head? hc))

theorem startsRest_spec {spec : Text} {tokens : Option (List MacroToken)}
    (h : OptionalSpec spec tokens) : StartsRest spec := by
  intro c hc
  cases h with
  | absent => cases hc
  | present h => exact .inl (Option.some.inj hc).symm

theorem startsRest_append {a b : Text} (ha : StartsRest a) (hb : StartsRest b) :
    StartsRest (a ++ b) := by
  cases a with
  | nil => exact hb
  | cons c a => exact ha

theorem startsRest_dual {spec four six : Text} {tokens : Option (List MacroToken)} {cidr4 cidr6 : ℕ}
    (hspec : OptionalSpec spec tokens) (hfour : OptionalLength ['/'] 1 32 four cidr4)
    (hsix : OptionalLength ['/', '/'] 2 128 six cidr6) : StartsRest (spec ++ (four ++ six)) := by
  refine startsRest_append (startsRest_spec hspec) (startsRest_append ?_ ?_)
  · exact startsRest_length (List.cons_ne_nil _ _) (fun c hc => List.mem_singleton.mp hc) hfour
  · exact startsRest_length (List.cons_ne_nil _ _) (fun c hc => by simpa using hc) hsix

/-- A mechanism is a name and a rest, which are read. -/
theorem parseKind_of_mechanism {s : Text} {kind : MechanismKind} (h : Mechanism s kind) :
    ∃ name rest, s = name ++ rest ∧ (∀ c ∈ name, c.isAlphanum = true) ∧ name ≠ [] ∧
      StartsRest rest ∧ ∀ term, parseKind term name rest = .ok kind := by
  cases h with
  | all h =>
    refine ⟨s, [], (List.append_nil _).symm, isAlphanum_of_named h rfl,
      ne_nil_of_named h (by decide), fun _ h => (by cases h), fun term => ?_⟩
    unfold parseKind
    rw [h]
    rfl
  | @include_ name spec tokens h hspec =>
    refine ⟨name, ':' :: spec, rfl, isAlphanum_of_named h rfl, ne_nil_of_named h (by decide),
      fun c hc => .inl (Option.some.inj hc).symm, fun term => ?_⟩
    have hkind : parseKind term name (':' :: spec) =
        parseNeeded term "include".toList (':' :: spec) .include_ := by
      unfold parseKind
      rw [h]
      rfl
    rw [hkind]
    exact parseNeeded_eq_ok.mpr ⟨spec, tokens, rfl, hspec, rfl⟩
  | @exists_ name spec tokens h hspec =>
    refine ⟨name, ':' :: spec, rfl, isAlphanum_of_named h rfl, ne_nil_of_named h (by decide),
      fun c hc => .inl (Option.some.inj hc).symm, fun term => ?_⟩
    have hkind : parseKind term name (':' :: spec) =
        parseNeeded term "exists".toList (':' :: spec) .exists_ := by
      unfold parseKind
      rw [h]
      rfl
    rw [hkind]
    exact parseNeeded_eq_ok.mpr ⟨spec, tokens, rfl, hspec, rfl⟩
  | @a name spec four six tokens cidr4 cidr6 h hspec hfour hsix =>
    refine ⟨name, spec ++ (four ++ six), rfl, isAlphanum_of_named h rfl,
      ne_nil_of_named h (by decide), startsRest_dual hspec hfour hsix, fun term => ?_⟩
    have hkind : parseKind term name (spec ++ (four ++ six)) =
        parseDual term (spec ++ (four ++ six)) .a := by
      unfold parseKind
      rw [h]
      rfl
    rw [hkind]
    exact parseDual_eq_ok.mpr ⟨spec, four, six, tokens, cidr4, cidr6, rfl, hspec, hfour, hsix, rfl⟩
  | @mx name spec four six tokens cidr4 cidr6 h hspec hfour hsix =>
    refine ⟨name, spec ++ (four ++ six), rfl, isAlphanum_of_named h rfl,
      ne_nil_of_named h (by decide), startsRest_dual hspec hfour hsix, fun term => ?_⟩
    have hkind : parseKind term name (spec ++ (four ++ six)) =
        parseDual term (spec ++ (four ++ six)) .mx := by
      unfold parseKind
      rw [h]
      rfl
    rw [hkind]
    exact parseDual_eq_ok.mpr ⟨spec, four, six, tokens, cidr4, cidr6, rfl, hspec, hfour, hsix, rfl⟩
  | @ptr name spec tokens h hspec =>
    refine ⟨name, spec, rfl, isAlphanum_of_named h rfl, ne_nil_of_named h (by decide),
      startsRest_spec hspec, fun term => ?_⟩
    have hkind : parseKind term name spec = parsePtr term spec := by
      unfold parseKind
      rw [h]
      rfl
    rw [hkind]
    exact parsePtr_eq_ok.mpr ⟨tokens, hspec, rfl⟩
  | @ip4 name network cidr address length h hnetwork haddress hcidr =>
    refine ⟨name, ':' :: (network ++ cidr), rfl, isAlphanum_of_named h rfl,
      ne_nil_of_named h (by decide), fun c hc => .inl (Option.some.inj hc).symm, fun term => ?_⟩
    have hkind : parseKind term name (':' :: (network ++ cidr)) =
        parseNetwork term (':' :: (network ++ cidr))
          (fun text network => isIp4Network text && network.family = .four) 32 .ip4 := by
      unfold parseKind
      rw [h]
      rfl
    have hslash := slash_notMem_of_isIPv4 (ip4Network_isIPv4 (isIp4Network_iff.mpr hnetwork))
    rw [hkind]
    exact (@parseNetwork_eq_ok _ _ _ _ 1 _ _ (by decide)).mpr ⟨network, cidr, address, length, rfl,
      hslash, haddress, (ip4_valid haddress).mpr hnetwork, hcidr, rfl⟩
  | @ip6 name network cidr groups address length h hnetwork haddress hcidr =>
    refine ⟨name, ':' :: (network ++ cidr), rfl, isAlphanum_of_named h rfl,
      ne_nil_of_named h (by decide), fun c hc => .inl (Option.some.inj hc).symm, fun term => ?_⟩
    have hkind : parseKind term name (':' :: (network ++ cidr)) =
        parseNetwork term (':' :: (network ++ cidr)) (fun _ network => network.family = .six) 128
          .ip6 := by
      unfold parseKind
      rw [h]
      rfl
    rw [hkind]
    exact (@parseNetwork_eq_ok _ _ _ _ 2 _ _ (by decide)).mpr ⟨network, cidr, address, length, rfl,
      slash_notMem_of_spells hnetwork, haddress, (ip6_valid haddress).mpr ⟨groups, hnetwork⟩, hcidr,
      rfl⟩

end BunMail.Spf
