import BunMail.Domains.SpfTerms

/-!
# The parser of SPF records

`parseSpfRecord` reads exactly the records of the grammar: the terms between the spaces are the
directives and modifiers of a derivation, in order.
-/

namespace BunMail.Spf

open Text Ip

/-! ## Directives -/

theorem isNameChar_iff {c : Char} :
    isNameChar c = true ↔ c.isAlphanum = true ∨ c ∈ ['.', '_', '-'] := by
  unfold isNameChar
  rw [Bool.or_eq_true, decide_eq_true_iff]

theorem not_startsRest {c : Char} (h : c.isAlphanum = true) : (c ≠ ':' && c ≠ '/') = true := by
  rw [Bool.and_eq_true, decide_eq_true_iff, decide_eq_true_iff]
  constructor
  · rintro rfl
    revert h
    decide
  · rintro rfl
    revert h
    decide

theorem qualifierOf_isAlphanum {c : Char} (h : c.isAlphanum = true) : qualifierOf c = none := by
  unfold qualifierOf
  split
  · revert h
    decide
  · revert h
    decide
  · revert h
    decide
  · revert h
    decide
  · rfl

theorem qualifierOf_eq_some {c : Char} {qualifier : Qualifier} (h : qualifierOf c = some qualifier) :
    Qualified [c] qualifier := by
  unfold qualifierOf at h
  split at h
  · obtain rfl := Option.some.inj h
    exact .pass
  · obtain rfl := Option.some.inj h
    exact .fail
  · obtain rfl := Option.some.inj h
    exact .softfail
  · obtain rfl := Option.some.inj h
    exact .neutral
  · cases h

/-- What `DIRECTIVE` cuts a term into. -/
theorem directive_spec (term : Text) : ∃ sign,
    term = sign ++ ((directive term).2.1 ++ (directive term).2.2) ∧ Qualified sign (directive term).1 := by
  have hcut : ∀ s : Text, s.takeWhile (fun c => c ≠ ':' && c ≠ '/') ++
      s.dropWhile (fun c => c ≠ ':' && c ≠ '/') = s := fun s => List.takeWhile_append_dropWhile
  cases term with
  | nil => exact ⟨[], rfl, .absent⟩
  | cons c term =>
    cases hq : qualifierOf c with
    | none =>
      have hdirective : directive (c :: term) = (.pass,
          (c :: term).takeWhile (fun c => c ≠ ':' && c ≠ '/'),
          (c :: term).dropWhile fun c => c ≠ ':' && c ≠ '/') := by
        unfold directive
        dsimp only [List.head?_cons, Option.bind_some]
        rw [hq]
        rfl
      rw [hdirective]
      exact ⟨[], (hcut _).symm, .absent⟩
    | some qualifier =>
      have hdirective : directive (c :: term) = (qualifier,
          term.takeWhile (fun c => c ≠ ':' && c ≠ '/'),
          term.dropWhile fun c => c ≠ ':' && c ≠ '/') := by
        unfold directive
        dsimp only [List.head?_cons, Option.bind_some]
        rw [hq]
        rfl
      rw [hdirective]
      exact ⟨[c], congrArg _ (hcut _).symm, qualifierOf_eq_some hq⟩

theorem modifier?_eq_none {term : Text} (h : ∀ c ∈ (term.dropWhile isNameChar).head?, c ≠ '=') :
    modifier? term = none := by
  unfold modifier?
  dsimp only
  split
  · next value hdrop => exact absurd rfl (h '=' (by rw [hdrop]; rfl))
  · rfl

/-- **`MODIFIER` cuts a modifier into its name and its value.** -/
theorem modifier?_eq_some {term name value : Text} :
    modifier? term = some (name, value) ↔ term = name ++ '=' :: value ∧ ModifierName name := by
  constructor
  · intro h
    have hcut := List.takeWhile_append_dropWhile (p := isNameChar) (l := term)
    unfold modifier? at h
    dsimp only at h
    split at h
    · next value' hdrop =>
      split_ifs at h with hhead
      obtain ⟨rfl, rfl⟩ := Prod.mk.inj (Option.some.inj h)
      rw [hdrop] at hcut
      refine ⟨hcut.symm, ?_⟩
      have hchars : ∀ c ∈ term.takeWhile isNameChar, isNameChar c = true :=
        fun c hc => List.mem_takeWhile_imp hc
      generalize term.takeWhile isNameChar = name at hhead hchars
      cases name with
      | nil => cases hhead
      | cons c rest =>
        refine ⟨c, rest, rfl, hhead, fun d hd => ?_⟩
        have hd := isNameChar_iff.mp (hchars d (List.mem_cons_of_mem _ hd))
        simp only [List.mem_cons, List.not_mem_nil, or_false] at hd ⊢
        tauto
    · cases h
  · rintro ⟨rfl, c, rest, rfl, hc, hrest⟩
    have hchars : ∀ d ∈ c :: rest, isNameChar d = true := by
      refine List.forall_mem_cons.mpr ⟨isNameChar_iff.mpr (.inl ?_), fun d hd => ?_⟩
      · unfold Char.isAlphanum
        rw [hc, Bool.true_or]
      · have hd := hrest d hd
        rw [isNameChar_iff]
        simp only [List.mem_cons, List.not_mem_nil, or_false] at hd ⊢
        tauto
    obtain ⟨htake, hdrop⟩ := cut_append hchars
      (show ∀ d ∈ ('=' :: value).head?, isNameChar d = false from fun d hd => by
        obtain rfl := Option.some.inj hd
        rfl)
    unfold modifier?
    rw [htake, hdrop]
    exact if_pos hc

section Directive

variable {sign name rest : Text} {qualifier : Qualifier} (hsign : Qualified sign qualifier)
  (hname : ∀ c ∈ name, c.isAlphanum = true) (hne : name ≠ []) (hrest : StartsRest rest)

include hsign hname hne hrest

theorem directive_append : directive (sign ++ (name ++ rest)) = (qualifier, name, rest) := by
  have hstop : ∀ c ∈ rest.head?, (c ≠ ':' && c ≠ '/') = false := by
    intro c hc
    rcases hrest c hc with rfl | rfl <;> rfl
  obtain ⟨htake, hdrop⟩ := cut_append (fun c hc => not_startsRest (hname c hc)) hstop
  obtain ⟨c, name', rfl⟩ := List.exists_cons_of_ne_nil hne
  have hq := qualifierOf_isAlphanum (hname c List.mem_cons_self)
  cases hsign with
  | absent =>
    unfold directive
    dsimp only [List.nil_append, List.cons_append, List.head?_cons, Option.bind_some]
    rw [hq]
    exact Prod.ext rfl (Prod.ext htake hdrop)
  | _ => exact Prod.ext rfl (Prod.ext htake hdrop)

omit hne in
/-- A directive is no modifier. -/
theorem modifier?_append : modifier? (sign ++ (name ++ rest)) = none := by
  have hstop : ∀ c ∈ rest.head?, isNameChar c = false := by
    intro c hc
    rcases hrest c hc with rfl | rfl <;> rfl
  have hchars : ∀ c ∈ name, isNameChar c = true := fun c hc => isNameChar_iff.mpr (.inl (hname c hc))
  have hplain : (name ++ rest).dropWhile isNameChar = rest := (cut_append hchars hstop).2
  have hrest' : ∀ c ∈ rest.head?, c ≠ '=' := by
    intro c hc
    rcases hrest c hc with rfl | rfl <;> decide
  refine modifier?_eq_none fun c hc => ?_
  cases hsign with
  | absent =>
    rw [List.nil_append, hplain] at hc
    exact hrest' c hc
  | fail =>
    have hdash : (['-'] ++ (name ++ rest)).dropWhile isNameChar = (name ++ rest).dropWhile isNameChar :=
      rfl
    rw [hdash, hplain] at hc
    exact hrest' c hc
  | pass =>
    obtain rfl := Option.some.inj hc
    decide
  | softfail =>
    obtain rfl := Option.some.inj hc
    decide
  | neutral =>
    obtain rfl := Option.some.inj hc
    decide

end Directive

/-- **`parseMechanism` reads exactly the directives.** -/
theorem parseMechanism_eq_ok {term : Text} {m : SpfMechanism} :
    parseMechanism term = .ok m ↔ ∃ sign rest qualifier kind, term = sign ++ rest ∧
      Qualified sign qualifier ∧ Mechanism rest kind ∧ m = { qualifier, term, kind } := by
  unfold parseMechanism
  constructor
  · intro h
    obtain ⟨sign, hterm, hsign⟩ := directive_spec term
    obtain ⟨kind, hkind, rfl⟩ := map_eq_ok.mp h
    exact ⟨sign, _, _, kind, hterm, hsign, mechanism_of_parseKind hkind, rfl⟩
  · rintro ⟨sign, s, qualifier, kind, rfl, hsign, hmechanism, rfl⟩
    obtain ⟨name, rest, rfl, hname, hne, hrest, hkind⟩ := parseKind_of_mechanism hmechanism
    rw [directive_append hsign hname hne hrest]
    exact map_eq_ok.mpr ⟨kind, hkind _, rfl⟩

/-! ## Terms -/

/-- What a term adds to the variables of the loop. -/
def RecordState.add (s : RecordState) : TermValue → RecordState
  | .mechanism m => { s with mechanisms := s.mechanisms ++ [m] }
  | .redirect tokens => { s with seenRedirect := s.seenRedirect + 1, redirect := some tokens }
  | .exp _ => { s with seenExp := s.seenExp + 1 }
  | .other => s

theorem modifierName_of_named {name : Text} {of : String} (h : Named name of)
    (hne : of.toList ≠ []) (hof : of.toList.all Char.isAlpha = true) : ModifierName name := by
  have hchars : ∀ c ∈ name, c.isAlpha = true := by
    intro c hc
    rw [← Char.isAlpha_toLower_eq_isAlpha]
    refine List.all_eq_true.mp hof _ ?_
    rw [← h]
    exact List.mem_map_of_mem hc
  obtain ⟨c, rest, rfl⟩ := List.exists_cons_of_ne_nil (ne_nil_of_named h hne)
  obtain ⟨hc, hrest⟩ := List.forall_mem_cons.mp hchars
  refine ⟨c, rest, rfl, hc, fun d hd => .inl ?_⟩
  unfold Char.isAlphanum
  rw [hrest d hd, Bool.true_or]

/-- **A turn of the loop reads exactly a term.** -/
theorem addTerm_eq_ok {s s' : RecordState} {t : Text} (hne : t ≠ []) :
    addTerm s t = .ok s' ↔ ∃ value, Term t value ∧ s' = s.add value := by
  unfold addTerm
  rw [if_neg hne]
  constructor
  · intro h
    split at h
    · obtain ⟨m, hm, rfl⟩ := map_eq_ok.mp h
      obtain ⟨sign, rest, qualifier, kind, rfl, hsign, hmechanism, rfl⟩ := parseMechanism_eq_ok.mp hm
      exact ⟨_, .directive hsign hmechanism, rfl⟩
    · next name value hmodifier =>
      obtain ⟨rfl, hname⟩ := modifier?_eq_some.mp hmodifier
      split_ifs at h with hredirect hexp
      · obtain ⟨tokens, hspec, rfl⟩ := map_eq_ok.mp h
        exact ⟨_, .redirect hredirect (parseDomainSpec_eq_ok.mp hspec), rfl⟩
      · obtain ⟨tokens, hspec, rfl⟩ := map_eq_ok.mp h
        exact ⟨_, .explanation hexp (parseDomainSpec_eq_ok.mp hspec), rfl⟩
      · obtain ⟨tokens, hvalue, rfl⟩ := map_eq_ok.mp h
        exact ⟨_, .unknown hname hredirect hexp (parseMacroString_eq_ok.mp hvalue), rfl⟩
  · rintro ⟨value, hterm, rfl⟩
    cases hterm with
    | @directive sign rest qualifier kind hsign hmechanism =>
      obtain ⟨name, rest', rfl, hname, hnil, hrest, _⟩ := parseKind_of_mechanism hmechanism
      rw [modifier?_append hsign hname hrest]
      exact map_eq_ok.mpr ⟨_, parseMechanism_eq_ok.mpr ⟨sign, _, qualifier, kind, rfl, hsign,
        hmechanism, rfl⟩, rfl⟩
    | @redirect name spec tokens h hspec =>
      have hredirect : asciiLower name = "redirect".toList := h
      rw [modifier?_eq_some.mpr ⟨rfl, modifierName_of_named h (by decide) rfl⟩]
      dsimp only
      rw [if_pos hredirect]
      exact map_eq_ok.mpr ⟨tokens, parseDomainSpec_eq_ok.mpr hspec, rfl⟩
    | @explanation name spec tokens h hspec =>
      have hexp : asciiLower name = "exp".toList := h
      have hredirect : asciiLower name ≠ "redirect".toList := by
        rw [hexp]
        decide
      rw [modifier?_eq_some.mpr ⟨rfl, modifierName_of_named h (by decide) rfl⟩]
      dsimp only
      rw [if_neg hredirect, if_pos hexp]
      exact map_eq_ok.mpr ⟨tokens, parseDomainSpec_eq_ok.mpr hspec, rfl⟩
    | @unknown name value tokens h hredirect hexp hvalue =>
      have hredirect : asciiLower name ≠ "redirect".toList := hredirect
      have hexp : asciiLower name ≠ "exp".toList := hexp
      rw [modifier?_eq_some.mpr ⟨rfl, h⟩]
      dsimp only
      rw [if_neg hredirect, if_neg hexp]
      exact map_eq_ok.mpr ⟨tokens, parseMacroString_eq_ok.mpr hvalue, rfl⟩

/-! ## Visible characters -/

/-- A visible character of US-ASCII. -/
def Visible (c : Char) : Prop := 0x21 ≤ c.toNat ∧ c.toNat ≤ 0x7e

theorem visible_of_isAlphanum {c : Char} (h : c.isAlphanum = true) : Visible c := by
  obtain ⟨h₁, h₂⟩ := isAlphanum_range h
  exact ⟨by omega, by omega⟩

theorem isAlphanum_of_isDigit {c : Char} (h : c.isDigit = true) : c.isAlphanum = true := by
  unfold Char.isAlphanum
  rw [h, Bool.or_true]

theorem visible_append {a b : Text} (ha : ∀ c ∈ a, Visible c) (hb : ∀ c ∈ b, Visible c) :
    ∀ c ∈ a ++ b, Visible c := fun c hc =>
  (List.mem_append.mp hc).elim (ha c) (hb c)

theorem visible_cons {a : Char} {b : Text} (ha : Visible a) (hb : ∀ c ∈ b, Visible c) :
    ∀ c ∈ a :: b, Visible c := List.forall_mem_cons.mpr ⟨ha, hb⟩

instance (c : Char) : Decidable (Visible c) := inferInstanceAs (Decidable (_ ∧ _))

theorem visible_expand {exp : Bool} {e : Text} {token : MacroToken} (h : MacroExpand exp e token) :
    ∀ c ∈ e, Visible c := by
  cases h with
  | @braces c letter digits r delimiters hletter _ hdigits _ hr hdelimiters =>
    have hc : Visible c := visible_of_isAlphanum (by
      unfold Char.isAlphanum
      rw [isAlpha_of_toLower hletter, Bool.true_or])
    refine visible_cons (by decide) (visible_cons (by decide) (visible_cons hc (visible_append ?_
      (visible_append ?_ (visible_append ?_ (List.forall_mem_singleton.mpr (by decide)))))))
    · exact fun d hd => visible_of_isAlphanum (isAlphanum_of_isDigit (hdigits d hd))
    · intro d hd
      rcases hr with rfl | rfl | rfl
      · cases hd
      · rw [List.mem_singleton.mp hd]
        decide
      · rw [List.mem_singleton.mp hd]
        decide
    · intro d hd
      have hmem := isDelimiter_iff.mp (hdelimiters d hd)
      simp only [List.mem_cons, List.not_mem_nil, or_false] at hmem
      rcases hmem with rfl | rfl | rfl | rfl | rfl | rfl | rfl <;> decide
  | percent => exact visible_cons (by decide) (List.forall_mem_singleton.mpr (by decide))
  | space => exact visible_cons (by decide) (List.forall_mem_singleton.mpr (by decide))
  | encoded => exact visible_cons (by decide) (List.forall_mem_singleton.mpr (by decide))

theorem visible_macroString {exp : Bool} {s : Text} {tokens : List MacroToken}
    (h : MacroString exp s tokens) : ∀ c ∈ s, Visible c := by
  induction h with
  | nil => exact fun c hc => absurd hc List.not_mem_nil
  | literal hc _ ih => exact visible_cons ⟨hc.1, hc.2.1⟩ ih
  | expand he _ ih => exact visible_append (visible_expand he) ih

theorem visible_spec {s : Text} {tokens : Option (List MacroToken)} (h : OptionalSpec s tokens) :
    ∀ c ∈ s, Visible c := by
  cases h with
  | absent => exact fun c hc => absurd hc List.not_mem_nil
  | present h => exact visible_cons (by decide) (visible_macroString h.tokens)

theorem visible_length {slashes s : Text} {more max n : ℕ} (hslashes : ∀ c ∈ slashes, Visible c)
    (h : OptionalLength slashes more max s n) : ∀ c ∈ s, Visible c := by
  cases h with
  | absent => exact fun c hc => absurd hc List.not_mem_nil
  | present h =>
    exact visible_append hslashes fun c hc =>
      visible_of_isAlphanum (isAlphanum_of_isDigit ((isDigits_of_cidr h).2 c hc))

theorem visible_addressChar {c : Char} (h : isAddressChar c = true) : Visible c := by
  unfold isAddressChar at h
  rcases Bool.or_eq_true_iff.mp h with hx | hx
  · by_cases hu : c.isUpper = true
    · refine visible_of_isAlphanum ?_
      unfold Char.isAlphanum Char.isAlpha
      rw [hu]
      rfl
    · rw [Char.toLower_eq_of_not_isUpper hu] at hx
      have hn := isHexDigit_toNat hx
      exact ⟨by omega, by omega⟩
  · simp only [decide_eq_true_eq, List.mem_cons, List.not_mem_nil, or_false] at hx
    rcases hx with rfl | rfl <;> decide

theorem visible_isIPv4 {s : Text} (h : isIPv4 s = true) : ∀ c ∈ s, Visible c := fun c hc =>
  visible_addressChar (addressChar_of_isIPv4 h c hc)

theorem visible_mechanism {s : Text} {kind : MechanismKind} (h : Mechanism s kind) :
    s ≠ [] ∧ ∀ c ∈ s, Visible c := by
  have hname : ∀ {name : Text} {of : String}, Named name of → of.toList.all Char.isAlphanum = true →
      ∀ c ∈ name, Visible c := fun hn hof c hc => visible_of_isAlphanum (isAlphanum_of_named hn hof c hc)
  refine ⟨?_, ?_⟩
  · obtain ⟨name, rest, rfl, _, hne, _, _⟩ := parseKind_of_mechanism h
    exact List.append_ne_nil_of_left_ne_nil hne rest
  · have hslash : ∀ c ∈ ['/'], Visible c := List.forall_mem_singleton.mpr (by decide)
    have hslashes : ∀ c ∈ ['/', '/'], Visible c := visible_cons (by decide) hslash
    have hcolon : Visible ':' := by decide
    cases h with
    | all hn => exact hname hn rfl
    | include_ hn hspec =>
      exact visible_append (hname hn rfl) (visible_cons hcolon (visible_macroString hspec.tokens))
    | exists_ hn hspec =>
      exact visible_append (hname hn rfl) (visible_cons hcolon (visible_macroString hspec.tokens))
    | a hn hspec hfour hsix =>
      exact visible_append (hname hn rfl) (visible_append (visible_spec hspec)
        (visible_append (visible_length hslash hfour) (visible_length hslashes hsix)))
    | mx hn hspec hfour hsix =>
      exact visible_append (hname hn rfl) (visible_append (visible_spec hspec)
        (visible_append (visible_length hslash hfour) (visible_length hslashes hsix)))
    | ptr hn hspec => exact visible_append (hname hn rfl) (visible_spec hspec)
    | ip4 hn hnetwork _ hcidr =>
      have hfour := ip4Network_isIPv4 (isIp4Network_iff.mpr hnetwork)
      exact visible_append (hname hn rfl) (visible_cons hcolon
        (visible_append (visible_isIPv4 hfour) (visible_length hslash hcidr)))
    | ip6 hn hnetwork _ hcidr =>
      exact visible_append (hname hn rfl) (visible_cons hcolon (visible_append
        (fun c hc => visible_addressChar (addressChar_of_spells hnetwork c hc))
        (visible_length hslash hcidr)))

/-- A term is visible text. -/
theorem visible_term {t : Text} {value : TermValue} (h : Term t value) :
    t ≠ [] ∧ ∀ c ∈ t, Visible c := by
  have hmodifier : ∀ {name value : Text}, ModifierName name → (∀ c ∈ value, Visible c) →
      name ++ '=' :: value ≠ [] ∧ ∀ c ∈ name ++ '=' :: value, Visible c := by
    rintro name value ⟨c, rest, rfl, hc, hrest⟩ hvalue
    refine ⟨List.cons_ne_nil _ _, visible_append (visible_cons ?_ fun d hd => ?_)
      (visible_cons (by decide) hvalue)⟩
    · refine visible_of_isAlphanum ?_
      unfold Char.isAlphanum
      rw [hc, Bool.true_or]
    · rcases hrest d hd with halpha | hmem
      · exact visible_of_isAlphanum halpha
      · simp only [List.mem_cons, List.not_mem_nil, or_false] at hmem
        rcases hmem with rfl | rfl | rfl <;> decide
  cases h with
  | @directive sign rest qualifier kind hsign hmechanism =>
    obtain ⟨hne, hrest⟩ := visible_mechanism hmechanism
    refine ⟨List.append_ne_nil_of_right_ne_nil _ hne, visible_append ?_ hrest⟩
    cases hsign with
    | absent => exact fun c hc => absurd hc List.not_mem_nil
    | _ => exact List.forall_mem_singleton.mpr (by decide)
  | redirect h hspec =>
    exact hmodifier (modifierName_of_named h (by decide) rfl) (visible_macroString hspec.tokens)
  | explanation h hspec =>
    exact hmodifier (modifierName_of_named h (by decide) rfl) (visible_macroString hspec.tokens)
  | unknown h _ _ hvalue => exact hmodifier h (visible_macroString hvalue)

end BunMail.Spf
