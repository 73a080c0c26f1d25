import BunMail.Domains.SpfGrammar

/-!
# Macro-strings and domain-specs

`parseMacroString` reads exactly the macro-strings and gives their tokens; `parseDomainSpec` reads
exactly those that end in a domain-end.
-/

namespace BunMail.Spf

open Text Ip

/-! ## Macros -/

theorem macroLetter?_eq_some {c : Char} {letter : MacroLetter} :
    macroLetter? c = some letter ↔ c = letter.char := by
  constructor
  · intro h
    unfold macroLetter? at h
    split at h <;> cases h <;> rfl
  · rintro rfl
    cases letter <;> rfl

theorem isAlpha_of_toLower {c : Char} {letter : MacroLetter} (h : c.toLower = letter.char) :
    c.isAlpha = true := by
  rw [← Char.isAlpha_toLower_eq_isAlpha, h]
  cases letter <;> rfl

theorem isUpper_iff_ne_toLower {c : Char} : decide (c ≠ c.toLower) = c.isUpper := by
  rw [Bool.eq_iff_iff, decide_eq_true_iff]
  constructor
  · intro hne
    by_contra hu
    exact hne (Char.toLower_eq_of_not_isUpper hu).symm
  · intro hu heq
    have hlow := Char.isUpper_toLower_eq_false c
    rw [← heq, hu] at hlow
    cases hlow

theorem isDelimiter_iff {c : Char} : isDelimiter c = true ↔ c ∈ ['.', '-', '+', ',', '/', '_', '='] :=
  decide_eq_true_iff

theorem not_isDigit_of_isDelimiter {c : Char} (h : isDelimiter c = true) :
    c.isDigit = false ∧ c ≠ '\x7d' ∧ c ≠ 'r' ∧ c ≠ 'R' := by
  rw [isDelimiter_iff] at h
  simp only [List.mem_cons, List.not_mem_nil, or_false] at h
  rcases h with rfl | rfl | rfl | rfl | rfl | rfl | rfl <;> decide

/-- What the pieces of a body are. -/
structure Body (body : Text) (c : Char) (digits r delimiters : Text) : Prop where
  eq : body = c :: (digits ++ (r ++ delimiters))
  alpha : c.isAlpha = true
  digits : ∀ d ∈ digits, d.isDigit = true
  r : r = [] ∨ r = ['r'] ∨ r = ['R']
  delimiters : ∀ d ∈ delimiters, isDelimiter d = true

theorem cutReverse_spec (s : Text) : s = (cutReverse s).1 ++ (cutReverse s).2 ∧
    ((cutReverse s).1 = [] ∨ (cutReverse s).1 = ['r'] ∨ (cutReverse s).1 = ['R']) := by
  cases s with
  | nil => exact ⟨rfl, .inl rfl⟩
  | cons c s =>
    by_cases hc : c = 'r' ∨ c = 'R'
    · have hcut : cutReverse (c :: s) = ([c], s) := if_pos hc
      rw [hcut]
      rcases hc with rfl | rfl
      · exact ⟨rfl, .inr (.inl rfl)⟩
      · exact ⟨rfl, .inr (.inr rfl)⟩
    · have hcut : cutReverse (c :: s) = ([], c :: s) := if_neg hc
      rw [hcut]
      exact ⟨rfl, .inl rfl⟩

theorem cutReverse_append {r delimiters : Text} (hr : r = [] ∨ r = ['r'] ∨ r = ['R'])
    (hd : ∀ d ∈ delimiters, isDelimiter d = true) : cutReverse (r ++ delimiters) = (r, delimiters) := by
  rcases hr with rfl | rfl | rfl
  · cases delimiters with
    | nil => rfl
    | cons d delimiters =>
      obtain ⟨_, _, hr, hR⟩ := not_isDigit_of_isDelimiter (hd d List.mem_cons_self)
      exact if_neg fun h => h.elim hr hR
  · rfl
  · rfl

/-- **`MACRO_BODY` cuts a body into its pieces.** -/
theorem macroBody?_eq_some {body : Text} {c : Char} {digits r delimiters : Text} :
    macroBody? body = some (c, digits, r, delimiters) ↔ Body body c digits r delimiters := by
  constructor
  · intro h
    cases body with
    | nil => cases h
    | cons c' s =>
      obtain ⟨hcut, hr⟩ := cutReverse_spec (s.dropWhile Char.isDigit)
      by_cases hok : (c'.isAlpha && (cutReverse (s.dropWhile Char.isDigit)).2.all isDelimiter) = true
      · have heq : macroBody? (c' :: s) = some (c', s.takeWhile Char.isDigit,
            (cutReverse (s.dropWhile Char.isDigit)).1, (cutReverse (s.dropWhile Char.isDigit)).2) :=
          if_pos hok
        rw [heq] at h
        simp only [Option.some.injEq, Prod.mk.injEq] at h
        obtain ⟨rfl, rfl, rfl, rfl⟩ := h
        rw [Bool.and_eq_true, List.all_eq_true] at hok
        refine ⟨?_, hok.1, fun d hd => List.mem_takeWhile_imp hd, hr, hok.2⟩
        rw [← hcut, List.takeWhile_append_dropWhile]
      · have heq := (if_neg hok).symm.trans h
        cases heq
  · rintro ⟨rfl, halpha, hdigits, hr, hdelimiters⟩
    have hhead : ∀ d ∈ (r ++ delimiters).head?, d.isDigit = false := by
      intro d hd
      rcases hr with rfl | rfl | rfl
      · exact (not_isDigit_of_isDelimiter (hdelimiters d (List.mem_of_mem_head? hd))).1
      · cases hd
        rfl
      · cases hd
        rfl
    obtain ⟨htake, hdrop⟩ := cut_append hdigits hhead
    have hok : (c.isAlpha && delimiters.all isDelimiter) = true := by
      rw [halpha, List.all_eq_true.mpr hdelimiters]
      rfl
    unfold macroBody?
    dsimp only
    rw [hdrop, cutReverse_append hr hdelimiters, htake]
    exact if_pos hok

/-- **`parseMacro` reads exactly the macros.** -/
theorem parseMacro_eq_ok {body : Text} {exp : Bool} {token : MacroToken} :
    parseMacro body exp = .ok token ↔ MacroExpand exp (braced body) token := by
  constructor
  · intro h
    unfold parseMacro at h
    cases hbody : macroBody? body with
    | none =>
      rw [hbody] at h
      cases h
    | some pieces =>
      obtain ⟨c, digits, r, delimiters⟩ := pieces
      rw [hbody] at h
      dsimp only at h
      cases hletter : macroLetter? c.toLower with
      | none =>
        rw [hletter] at h
        cases h
      | some letter =>
        rw [hletter] at h
        dsimp only at h
        by_cases hexp : letter ∈ EXP_ONLY_LETTERS ∧ ¬ exp = true
        · rw [if_pos hexp] at h
          cases h
        · by_cases hzero : digits ≠ [] ∧ ofDecimal digits = 0
          · rw [if_neg hexp, if_pos hzero] at h
            cases h
          · rw [if_neg hexp, if_neg hzero] at h
            obtain rfl := Except.ok.inj h
            obtain ⟨rfl, halpha, hdigits, hr, hdelimiters⟩ := macroBody?_eq_some.mp hbody
            have hexpand := @MacroExpand.braces exp _ _ _ _ _ (macroLetter?_eq_some.mp hletter)
              (fun hmem => by_contra fun hno => hexp ⟨hmem, hno⟩) hdigits
              (fun hne h0 => hzero ⟨hne, h0⟩) hr hdelimiters
            rw [isUpper_iff_ne_toLower]
            unfold braced
            simpa only [List.cons_append, List.append_assoc] using hexpand
  · intro h
    generalize htext : braced body = text at h
    cases h with
    | @braces c letter digits r delimiters hletter hexp hdigits hnonzero hr hdelimiters =>
      have hbody : body = c :: (digits ++ (r ++ delimiters)) := by
        have hcons : '%' :: '\x7b' :: (body ++ ['\x7d']) = '%' :: '\x7b' :: _ := htext
        have htail : body ++ ['\x7d'] = (c :: (digits ++ (r ++ delimiters))) ++ ['\x7d'] := by
          rw [(List.cons.inj (List.cons.inj hcons).2).2]
          simp only [List.cons_append, List.append_assoc]
        exact List.append_cancel_right htail
      have hpieces := macroBody?_eq_some.mpr
        ⟨hbody, isAlpha_of_toLower hletter, hdigits, hr, hdelimiters⟩
      unfold parseMacro
      rw [hpieces]
      dsimp only
      rw [macroLetter?_eq_some.mpr hletter]
      dsimp only
      rw [if_neg fun hno => hno.2 (hexp hno.1), if_neg fun hno => hnonzero hno.1 hno.2,
        isUpper_iff_ne_toLower]
    | percent =>
      unfold braced at htext
      cases htext
    | space =>
      unfold braced at htext
      cases htext
    | encoded =>
      unfold braced at htext
      cases htext

/-! ## Macro-strings -/

/-- Literal text in front of tokens. -/
def withLiteral (literal : Text) (tokens : List MacroToken) : List MacroToken :=
  literal.foldr consLiteral tokens

/-- A token that is no literal. -/
def NotLiteral (token : MacroToken) : Prop := ∀ text, token ≠ .literal text

theorem notLiteral_of_expand {exp : Bool} {e : Text} {token : MacroToken} (h : MacroExpand exp e token) :
    NotLiteral token := by
  intro text heq
  subst heq
  cases h

theorem consLiteral_of_not {token : MacroToken} (h : NotLiteral token) (c : Char)
    (tokens : List MacroToken) : consLiteral c (token :: tokens) = .literal [c] :: token :: tokens := by
  cases token with
  | literal text => exact absurd rfl (h text)
  | escape text => rfl
  | macroExpand => rfl

theorem withLiteral_cons (c : Char) (literal : Text) {tokens : List MacroToken}
    (h : ∀ token ∈ tokens.head?, NotLiteral token) :
    withLiteral (c :: literal) tokens = .literal (c :: literal) :: tokens := by
  induction literal generalizing c with
  | nil =>
    cases tokens with
    | nil => rfl
    | cons token tokens => exact consLiteral_of_not (h token rfl) c tokens
  | cons d literal ih =>
    show consLiteral c (withLiteral (d :: literal) tokens) = _
    rw [ih d]
    rfl

/-- `flush` puts the literal text before what follows. -/
theorem flush_append {tokens rest : List MacroToken} {literal : Text}
    (h : ∀ token ∈ rest.head?, NotLiteral token) :
    flush tokens literal ++ rest = tokens ++ withLiteral literal rest := by
  cases literal with
  | nil => rfl
  | cons c literal =>
    rw [withLiteral_cons c literal h]
    show tokens ++ [.literal (c :: literal)] ++ rest = _
    rw [List.append_assoc]
    rfl

theorem flush_token {tokens rest : List MacroToken} {literal : Text} {token : MacroToken}
    (h : NotLiteral token) :
    flush tokens literal ++ [token] ++ withLiteral [] rest =
      tokens ++ withLiteral literal (token :: rest) := by
  have hhead : ∀ t ∈ (token :: rest).head?, NotLiteral t := fun t ht => by
    obtain rfl := Option.some.inj ht
    exact h
  rw [← flush_append hhead, List.append_assoc]
  rfl

theorem readTokens_skip {exp : Bool} {skip : ℕ} {tokens : List MacroToken} {literal s : Text} :
    readTokens exp skip tokens literal s = readTokens exp 0 tokens literal (s.drop skip) := by
  induction skip generalizing s with
  | zero => rfl
  | succ skip ih =>
    cases s with
    | nil => rfl
    | cons c s =>
      show readTokens exp skip tokens literal s = _
      rw [ih, List.drop_succ_cons]

theorem isLiteral_iff {c : Char} :
    IsLiteral c ↔ c ≠ '%' ∧ ¬ (c.toNat < 0x21 ∨ 0x7e < c.toNat) := by
  unfold IsLiteral
  rw [not_or, not_lt, not_lt]
  exact ⟨fun ⟨h₁, h₂, h₃⟩ => ⟨h₃, h₁, h₂⟩, fun ⟨h₁, h₂, h₃⟩ => ⟨h₂, h₃, h₁⟩⟩

section Turns

variable {exp : Bool} {tokens : List MacroToken} {literal rest : Text}

theorem readTokens_literal {c : Char} (h : IsLiteral c) :
    readTokens exp 0 tokens literal (c :: rest) = readTokens exp 0 tokens (literal ++ [c]) rest := by
  obtain ⟨hpercent, hvisible⟩ := isLiteral_iff.mp h
  rw [readTokens, if_pos hpercent, if_neg hvisible]

theorem readTokens_braced {body : Text} {token : MacroToken} (hbrace : '\x7d' ∉ body)
    (h : parseMacro body exp = .ok token) :
    readTokens exp 0 tokens literal (braced body ++ rest) =
      readTokens exp 0 (flush tokens literal ++ [token]) [] rest := by
  have hbody : ∀ c ∈ body, decide (c ≠ '\x7d') = true := fun c hc =>
    decide_eq_true fun heq => hbrace (heq ▸ hc)
  have htail : (body ++ '\x7d' :: rest).takeWhile (· ≠ '\x7d') = body :=
    (cut_append hbody fun c hc => by cases hc; rfl).1
  have htext : braced body ++ rest = '%' :: '\x7b' :: (body ++ '\x7d' :: rest) := by
    unfold braced
    simp only [List.cons_append, List.append_assoc, List.nil_append]
  have hmem : '\x7d' ∈ body ++ '\x7d' :: rest := List.mem_append_right _ List.mem_cons_self
  have hdrop : ('\x7b' :: (body ++ '\x7d' :: rest)).drop (body.length + 2) = rest := by
    rw [show body.length + 2 = (body.length + 1) + 1 from rfl, List.drop_succ_cons,
      ← List.drop_drop, List.drop_left]
    rfl
  have hescape : ('\x7b' :: (body ++ '\x7d' :: rest)).head?.bind ESCAPES = none := rfl
  have hopen : ¬ ('\x7b' :: (body ++ '\x7d' :: rest)).head? ≠ some '\x7b' := fun h => h rfl
  have hclose : ¬ '\x7d' ∉ ('\x7b' :: (body ++ '\x7d' :: rest)).tail := fun h => h hmem
  rw [htext, readTokens, if_neg (fun h => h rfl), hescape]
  dsimp only
  rw [if_neg hopen, if_neg hclose, List.tail_cons, htail, h]
  dsimp only
  rw [readTokens_skip, hdrop]

/-- A turn at a `macro-expand`. -/
theorem readTokens_expand {e : Text} {token : MacroToken} (h : MacroExpand exp e token) :
    readTokens exp 0 tokens literal (e ++ rest) =
      readTokens exp 0 (flush tokens literal ++ [token]) [] rest := by
  have hexpand := h
  cases h with
  | @braces c letter digits r delimiters hletter hexp hdigits hnonzero hr hdelimiters =>
    have hbody : braced (c :: (digits ++ (r ++ delimiters))) =
        '%' :: '\x7b' :: c :: (digits ++ (r ++ (delimiters ++ ['\x7d']))) := by
      unfold braced
      simp only [List.cons_append, List.append_assoc]
    have hbrace : '\x7d' ∉ c :: (digits ++ (r ++ delimiters)) := by
      intro hmem
      simp only [List.mem_cons, List.mem_append] at hmem
      rcases hmem with rfl | hmem | hmem | hmem
      · exact absurd (isAlpha_of_toLower hletter) (by decide)
      · exact absurd (hdigits _ hmem) (by decide)
      · rcases hr with rfl | rfl | rfl
        · exact absurd hmem List.not_mem_nil
        · exact absurd (List.mem_singleton.mp hmem) (by decide)
        · exact absurd (List.mem_singleton.mp hmem) (by decide)
      · exact (not_isDigit_of_isDelimiter (hdelimiters _ hmem)).2.1 rfl
    rw [← hbody] at hexpand ⊢
    exact readTokens_braced hbrace (parseMacro_eq_ok.mpr hexpand)
  | percent =>
    show readTokens exp 1 _ [] ('%' :: rest) = _
    rw [readTokens_skip]
    rfl
  | space =>
    show readTokens exp 1 _ [] ('_' :: rest) = _
    rw [readTokens_skip]
    rfl
  | encoded =>
    show readTokens exp 1 _ [] ('-' :: rest) = _
    rw [readTokens_skip]
    rfl

/-- What a turn at a `%` reads. -/
theorem exists_expand {out : List MacroToken}
    (h : readTokens exp 0 tokens literal ('%' :: rest) = .ok out) :
    ∃ e token rest', '%' :: rest = e ++ rest' ∧ MacroExpand exp e token := by
  rw [readTokens, if_neg (fun h => h rfl)] at h
  cases rest with
  | nil => cases h
  | cons d rest =>
    by_cases hpercent : d = '%'
    · subst hpercent
      exact ⟨_, _, rest, rfl, .percent⟩
    · by_cases hspace : d = '_'
      · subst hspace
        exact ⟨_, _, rest, rfl, .space⟩
      · by_cases hencoded : d = '-'
        · subst hencoded
          exact ⟨_, _, rest, rfl, .encoded⟩
        · have hescape : ESCAPES d = none := by
            unfold ESCAPES
            split <;> simp_all
          have hbind : (d :: rest).head?.bind ESCAPES = none := hescape
          rw [hbind] at h
          dsimp only at h
          by_cases hopen : d = '\x7b'
          · subst hopen
            have hhead : ¬ ('\x7b' :: rest).head? ≠ some '\x7b' := fun h => h rfl
            rw [if_neg hhead, List.tail_cons] at h
            by_cases hclose : '\x7d' ∈ rest
            · rw [if_neg (fun h => h hclose)] at h
              cases hexpand : parseMacro (rest.takeWhile (· ≠ '\x7d')) exp with
              | error e =>
                rw [hexpand] at h
                cases h
              | ok token =>
                have hne : rest.dropWhile (· ≠ '\x7d') ≠ [] := fun hnil =>
                  absurd (List.dropWhile_eq_nil_iff.mp hnil _ hclose) (by decide)
                have hlast : (rest.dropWhile (· ≠ '\x7d')).head hne = '\x7d' := by
                  have hstop := List.head_dropWhile_not (fun c => decide (c ≠ '\x7d')) hne
                  simpa using hstop
                have hrest : rest = rest.takeWhile (· ≠ '\x7d') ++
                    '\x7d' :: (rest.dropWhile (· ≠ '\x7d')).tail := by
                  conv_lhs => rw [← List.takeWhile_append_dropWhile (p := fun c => decide (c ≠ '\x7d'))
                    (l := rest), ← List.cons_head_tail hne, hlast]
                refine ⟨_, token, (rest.dropWhile (· ≠ '\x7d')).tail, ?_, parseMacro_eq_ok.mp hexpand⟩
                unfold braced
                conv_lhs => rw [hrest]
                simp only [List.cons_append, List.append_assoc, List.nil_append]
            · rw [if_pos hclose] at h
              cases h
          · have hhead : (d :: rest).head? ≠ some '\x7b' := fun h => hopen (Option.some.inj h)
            rw [if_pos hhead] at h
            cases h

end Turns

/-- **The loop reads exactly the macro-strings.** By induction on what is left. -/
theorem readTokens_eq_ok {exp : Bool} {s literal : Text} {tokens out : List MacroToken} :
    readTokens exp 0 tokens literal s = .ok out ↔
      ∃ read, MacroString exp s read ∧ out = tokens ++ withLiteral literal read := by
  constructor
  · intro h
    induction hlen : s.length using Nat.strong_induction_on generalizing s literal tokens with
    | _ n ih =>
      cases s with
      | nil =>
        refine ⟨[], .nil, ?_⟩
        have hflush := Except.ok.inj h
        rw [← hflush, ← flush_append (fun _ h => (by cases h)), List.append_nil]
      | cons c s =>
        by_cases hc : c = '%'
        · subst hc
          obtain ⟨e, token, rest, heq, hexpand⟩ := exists_expand h
          rw [heq, readTokens_expand hexpand] at h
          have hshort : rest.length < n := by
            have hlength := congrArg List.length heq
            rw [hlen, List.length_append] at hlength
            have hpos : 0 < e.length := by cases hexpand <;> exact Nat.succ_pos _
            omega
          obtain ⟨read, hread, hout⟩ := ih _ hshort h rfl
          refine ⟨token :: read, ?_, ?_⟩
          · rw [heq]
            exact .expand hexpand hread
          · rw [hout, flush_token (notLiteral_of_expand hexpand)]
        · by_cases hvisible : c.toNat < 0x21 ∨ 0x7e < c.toNat
          · rw [readTokens, if_pos hc, if_pos hvisible] at h
            cases h
          · have hliteral := isLiteral_iff.mpr ⟨hc, hvisible⟩
            rw [readTokens_literal hliteral] at h
            obtain ⟨read, hread, hout⟩ := ih s.length (by rw [← hlen]; exact Nat.lt_succ_self _) h rfl
            refine ⟨consLiteral c read, .literal hliteral hread, ?_⟩
            rw [hout]
            unfold withLiteral
            rw [List.foldr_append]
            rfl
  · rintro ⟨read, hread, rfl⟩
    induction hread generalizing literal tokens with
    | nil =>
      rw [← flush_append (fun _ h => (by cases h)), List.append_nil]
      rfl
    | literal h _ ih =>
      rw [readTokens_literal h, ih]
      unfold withLiteral
      rw [List.foldr_append]
      rfl
    | @expand e s token read h _ ih =>
      rw [readTokens_expand h, ih, flush_token (notLiteral_of_expand h)]

/-- **`parseMacroString` reads exactly the macro-strings.** -/
theorem parseMacroString_eq_ok {exp : Bool} {s : Text} {tokens : List MacroToken} :
    parseMacroString s exp = .ok tokens ↔ MacroString exp s tokens := by
  unfold parseMacroString
  rw [readTokens_eq_ok]
  constructor
  · rintro ⟨read, hread, rfl⟩
    exact hread
  · exact fun h => ⟨tokens, h, rfl⟩

theorem MacroString.unique {exp : Bool} {s : Text} {tokens tokens' : List MacroToken}
    (h : MacroString exp s tokens) (h' : MacroString exp s tokens') : tokens = tokens' := by
  have hparse := parseMacroString_eq_ok.mpr h
  rw [parseMacroString_eq_ok.mpr h'] at hparse
  exact (Except.ok.inj hparse).symm

/-! ## The last token -/

section Last

variable {exp : Bool} {s : Text} {tokens : List MacroToken}

theorem consLiteral_append {c : Char} (h : tokens ≠ []) (rest : List MacroToken) :
    consLiteral c (tokens ++ rest) = consLiteral c tokens ++ rest := by
  obtain ⟨token, tokens, rfl⟩ := List.exists_cons_of_ne_nil h
  cases token <;> rfl

theorem MacroString.eq_nil (h : MacroString exp s []) : s = [] := by
  generalize htokens : ([] : List MacroToken) = tokens at h
  cases h with
  | nil => rfl
  | @literal c s tokens _ _ =>
    cases tokens with
    | nil => cases htokens
    | cons token tokens => cases token <;> cases htokens
  | expand => cases htokens

/-- A macro at the end is the last token. -/
theorem MacroString.append_expand {e : Text} {token : MacroToken} (h : MacroString exp s tokens)
    (he : MacroExpand exp e token) : MacroString exp (s ++ e) (tokens ++ [token]) := by
  induction h with
  | nil =>
    have hstring := MacroString.expand he .nil
    rwa [List.append_nil] at hstring
  | @literal c s tokens hc _ ih =>
    have hcons := MacroString.literal hc ih
    by_cases hnil : tokens = []
    · subst hnil
      rw [List.nil_append, consLiteral_of_not (notLiteral_of_expand he)] at hcons
      exact hcons
    · rwa [consLiteral_append hnil] at hcons
  | @expand e' s token' tokens he' _ ih =>
    rw [List.append_assoc]
    exact .expand he' ih

theorem macroString_literals {u : Text} (h : ∀ c ∈ u, IsLiteral c) :
    MacroString exp u (withLiteral u []) := by
  induction u with
  | nil => exact .nil
  | cons c u ih =>
    obtain ⟨hc, hu⟩ := List.forall_mem_cons.mp h
    exact .literal hc (ih hu)

/-- Literal text at the end is the end of the last token. -/
theorem MacroString.append_literals {u : Text} (h : MacroString exp s tokens)
    (hu : ∀ c ∈ u, IsLiteral c) (hne : u ≠ []) :
    ∃ before text, MacroString exp (s ++ u) (before ++ [.literal (text ++ u)]) := by
  induction h with
  | nil =>
    obtain ⟨c, u, rfl⟩ := List.exists_cons_of_ne_nil hne
    have hstring := @macroString_literals exp _ hu
    rw [withLiteral_cons c u fun _ h => (by cases h)] at hstring
    exact ⟨[], [], hstring⟩
  | @literal c s tokens hc _ ih =>
    obtain ⟨before, text, hstring⟩ := ih
    have hcons := MacroString.literal hc hstring
    by_cases hnil : before = []
    · subst hnil
      exact ⟨[], c :: text, hcons⟩
    · rw [consLiteral_append hnil] at hcons
      exact ⟨_, text, hcons⟩
  | @expand e s token tokens he _ ih =>
    obtain ⟨before, text, hstring⟩ := ih
    refine ⟨token :: before, text, ?_⟩
    rw [List.append_assoc]
    exact .expand he hstring

/-- A macro-string is empty, or ends in a macro, or in literal text. -/
theorem MacroString.last (h : MacroString exp s tokens) : s = [] ∧ tokens = [] ∨
    (∃ body e before token, s = body ++ e ∧ tokens = before ++ [token] ∧
      MacroString exp body before ∧ MacroExpand exp e token) ∨
    ∃ body text before, s = body ++ text ∧ tokens = before ++ [.literal text] ∧
      MacroString exp body before ∧ ∀ c ∈ text, IsLiteral c := by
  induction h with
  | nil => exact .inl ⟨rfl, rfl⟩
  | @literal c s tokens hc _ ih =>
    right
    rcases ih with ⟨rfl, rfl⟩ | ⟨body, e, before, token, rfl, rfl, hbody, he⟩ |
      ⟨body, text, before, rfl, rfl, hbody, htext⟩
    · refine .inr ⟨[], [c], [], rfl, rfl, .nil, fun d hd => ?_⟩
      rw [List.mem_singleton.mp hd]
      exact hc
    · refine .inl ⟨c :: body, e, consLiteral c before, token, rfl, ?_, .literal hc hbody, he⟩
      by_cases hnil : before = []
      · rw [hnil]
        exact consLiteral_of_not (notLiteral_of_expand he) c []
      · exact consLiteral_append hnil _
    · by_cases hnil : before = []
      · subst hnil
        obtain rfl := hbody.eq_nil
        exact .inr ⟨[], c :: text, [], rfl, rfl, .nil, List.forall_mem_cons.mpr ⟨hc, htext⟩⟩
      · exact .inr ⟨c :: body, text, consLiteral c before, rfl, consLiteral_append hnil _,
          .literal hc hbody, htext⟩
  | @expand e s token tokens he _ ih =>
    right
    rcases ih with ⟨rfl, rfl⟩ | ⟨body, e', before, token', rfl, rfl, hbody, he'⟩ |
      ⟨body, text, before, rfl, rfl, hbody, htext⟩
    · exact .inl ⟨[], e, [], token, List.append_nil e, rfl, .nil, he⟩
    · exact .inl ⟨e ++ body, e', token :: before, token', (List.append_assoc _ _ _).symm, rfl,
        .expand he hbody, he'⟩
    · exact .inr ⟨e ++ body, text, token :: before, (List.append_assoc _ _ _).symm, rfl,
        .expand he hbody, htext⟩

end Last

/-! ## Domain-specs -/

theorem isAlphanum_ne {c : Char} (h : c.isAlphanum = true) : c ≠ '-' ∧ c ≠ '.' := by
  constructor
  · rintro rfl
    revert h
    decide
  · rintro rfl
    revert h
    decide

/-- **`TOPLABEL`.** -/
theorem isToplabel_iff {s : Text} : isToplabel s = true ↔ Toplabel s := by
  unfold isToplabel
  rw [Bool.or_eq_true, Bool.and_eq_true, List.all_eq_true, List.any_eq_true]
  constructor
  · rintro (⟨hall, c, hc, halpha⟩ | h)
    · obtain ⟨before, after, rfl⟩ := List.append_of_mem hc
      exact .word (fun d hd => hall d (List.mem_append_left _ hd)) halpha fun d hd =>
        hall d (List.mem_append_right _ (List.mem_cons_of_mem _ hd))
    · cases hdrop : s.dropWhile Char.isAlphanum with
      | nil =>
        rw [hdrop] at h
        cases h
      | cons d rest =>
        rw [hdrop] at h
        by_cases hd : d = '-'
        · subst hd
          simp only [Bool.and_eq_true, decide_eq_true_iff, List.all_eq_true, Bool.or_eq_true,
            beq_iff_eq] at h
          obtain ⟨⟨hne, hrest⟩, hlast⟩ := h
          rcases List.eq_nil_or_concat rest with rfl | ⟨middle, c, rfl⟩
          · cases hlast
          · rw [List.concat_eq_append] at hrest hlast hdrop
            rw [List.getLast?_append] at hlast
            have htext : s = s.takeWhile Char.isAlphanum ++ '-' :: (middle ++ [c]) := by
              rw [← hdrop, List.takeWhile_append_dropWhile]
            rw [htext]
            exact .dashed hne (fun d hd => List.mem_takeWhile_imp hd)
              (fun d hd => hrest d (List.mem_append_left _ hd)) hlast
        · split at h
          · next heq => exact absurd (List.cons.inj heq).1 hd
          · cases h
  · intro h
    cases h with
    | @word before after c hbefore hc hafter =>
      refine .inl ⟨fun d hd => ?_, c, List.mem_append_right _ List.mem_cons_self, hc⟩
      simp only [List.mem_append, List.mem_cons] at hd
      rcases hd with hd | rfl | hd
      · exact hbefore d hd
      · unfold Char.isAlphanum
        rw [hc, Bool.true_or]
      · exact hafter d hd
    | @dashed before middle c hne hbefore hmiddle hc =>
      obtain ⟨htake, hdrop⟩ := cut_append hbefore
        (show ∀ d ∈ ('-' :: (middle ++ [c])).head?, d.isAlphanum = false from fun d hd => by
          cases hd
          rfl)
      refine .inr ?_
      rw [hdrop, htake]
      simp only [Bool.and_eq_true, decide_eq_true_iff, List.all_eq_true, Bool.or_eq_true, beq_iff_eq]
      refine ⟨⟨hne, fun d hd => ?_⟩, ?_⟩
      · rcases List.mem_append.mp hd with hd | hd
        · exact hmiddle d hd
        · rw [List.mem_singleton.mp hd]
          exact .inl hc
      · rw [List.getLast?_append]
        exact hc

theorem char_of_toplabel {label : Text} (h : Toplabel label) :
    ∀ c ∈ label, c.isAlphanum = true ∨ c = '-' := by
  intro c hmem
  cases h with
  | @word before after a hbefore ha hafter =>
    simp only [List.mem_append, List.mem_cons] at hmem
    rcases hmem with hmem | rfl | hmem
    · exact .inl (hbefore c hmem)
    · refine .inl ?_
      unfold Char.isAlphanum
      rw [ha, Bool.true_or]
    · exact .inl (hafter c hmem)
  | dashed _ hbefore hmiddle hc =>
    simp only [List.mem_append, List.mem_cons, List.not_mem_nil, or_false] at hmem
    rcases hmem with hmem | rfl | hmem | rfl
    · exact .inl (hbefore c hmem)
    · exact .inr rfl
    · exact hmiddle c hmem
    · exact .inl hc

theorem dot_notMem_toplabel {label : Text} (h : Toplabel label) : '.' ∉ label := fun hmem =>
  absurd (char_of_toplabel h _ hmem) (by decide)

theorem isAlphanum_range {c : Char} (h : c.isAlphanum = true) : 0x30 ≤ c.toNat ∧ c.toNat ≤ 0x7a := by
  unfold Char.isAlphanum Char.isAlpha Char.isUpper Char.isLower Char.isDigit at h
  simp only [Bool.or_eq_true, Bool.and_eq_true, decide_eq_true_eq, UInt32.le_iff_toNat_le] at h
  have hval : c.val.toNat = c.toNat := rfl
  rw [hval] at h
  rcases h with (⟨h₁, h₂⟩ | ⟨h₁, h₂⟩) | ⟨h₁, h₂⟩
  · exact ⟨le_trans (by decide) h₁, le_trans h₂ (by decide)⟩
  · exact ⟨le_trans (by decide) h₁, le_trans h₂ (by decide)⟩
  · exact ⟨h₁, le_trans h₂ (by decide)⟩

theorem isLiteral_of_isAlphanum {c : Char} (h : c.isAlphanum = true) : IsLiteral c := by
  obtain ⟨h₁, h₂⟩ := isAlphanum_range h
  refine ⟨by omega, by omega, ?_⟩
  rintro rfl
  revert h
  decide

theorem isLiteral_toplabel {label : Text} (h : Toplabel label) : ∀ c ∈ label, IsLiteral c := by
  intro c hmem
  rcases char_of_toplabel h c hmem with halpha | rfl
  · exact isLiteral_of_isAlphanum halpha
  · unfold IsLiteral
    decide

theorem toplabel_ne_nil {label : Text} (h : Toplabel label) : label ≠ [] := by
  cases h with
  | word => exact List.append_ne_nil_of_right_ne_nil _ (List.cons_ne_nil _ _)
  | dashed => exact List.append_ne_nil_of_right_ne_nil _ (List.cons_ne_nil _ _)

theorem afterLast_append {before label : Text} (h : '.' ∉ label) :
    afterLast '.' (before ++ '.' :: label) = label := by
  have hall : ∀ c ∈ label, decide (c ≠ '.') = true := fun c hc =>
    decide_eq_true fun heq => h (heq ▸ hc)
  unfold afterLast
  rw [List.rtakeWhile, List.reverse_append, List.reverse_cons, List.append_assoc,
    List.takeWhile_append_of_pos fun c hc => hall c (List.mem_reverse.mp hc)]
  simp

theorem exists_afterLast {s : Text} (h : '.' ∈ s) :
    ∃ before label, s = before ++ '.' :: label ∧ '.' ∉ label ∧ afterLast '.' s = label := by
  obtain ⟨after, before, hrev, hnot⟩ := List.eq_append_cons_of_mem (List.mem_reverse.mpr h)
  have htext : s = before.reverse ++ '.' :: after.reverse := by
    rw [← List.reverse_reverse s, hrev, List.reverse_append, List.reverse_cons, List.append_assoc]
    rfl
  have hnot' : '.' ∉ after.reverse := fun hmem => hnot (List.mem_reverse.mp hmem)
  refine ⟨before.reverse, after.reverse, htext, hnot', ?_⟩
  rw [htext]
  exact afterLast_append hnot'

theorem dropDot_spec (s : Text) : s = dropDot s ∨ s = dropDot s ++ ['.'] := by
  unfold dropDot
  split_ifs with h
  · right
    obtain ⟨before, rfl⟩ := List.getLast?_eq_some_iff.mp h
    rw [List.dropLast_concat]
  · exact .inl rfl

theorem dropDot_append {before label : Text} (h : Toplabel label) :
    dropDot (before ++ '.' :: label) = before ++ '.' :: label ∧
      dropDot (before ++ '.' :: (label ++ ['.'])) = before ++ '.' :: label := by
  constructor
  · unfold dropDot
    rw [if_neg]
    rw [List.getLast?_append_of_ne_nil _ (List.cons_ne_nil _ _),
      List.getLast?_cons_of_ne_nil (toplabel_ne_nil h)]
    intro hlast
    exact dot_notMem_toplabel h (List.mem_of_getLast? hlast)
  · have htext : before ++ '.' :: (label ++ ['.']) = (before ++ '.' :: label) ++ ['.'] := by
      simp only [List.cons_append, List.append_assoc]
    unfold dropDot
    rw [htext, if_pos List.getLast?_concat, List.dropLast_concat]

theorem MacroString.append {exp : Bool} {s s' : Text} {tokens tokens' : List MacroToken}
    (h : MacroString exp s tokens) (h' : MacroString exp s' tokens') :
    ∃ all, MacroString exp (s ++ s') all := by
  induction h with
  | nil => exact ⟨tokens', h'⟩
  | literal hc _ ih =>
    obtain ⟨all, hall⟩ := ih
    exact ⟨_, .literal hc hall⟩
  | @expand e s token tokens he _ ih =>
    obtain ⟨all, hall⟩ := ih
    refine ⟨token :: all, ?_⟩
    rw [List.append_assoc]
    exact .expand he hall

/-- What the test of the last token leaves. -/
theorem checkEnd_literal {input text : Text} {before : List MacroToken} :
    checkEnd input (before ++ [.literal text]) = .ok (before ++ [.literal text]) ↔
      ∃ start label, dropDot text = start ++ '.' :: label ∧ Toplabel label := by
  unfold checkEnd
  rw [List.getLast?_concat]
  dsimp only
  by_cases hbad : '.' ∉ dropDot text ∨ ¬ isToplabel (afterLast '.' (dropDot text)) = true
  · rw [if_pos hbad]
    refine ⟨fun h => (by cases h), ?_⟩
    rintro ⟨start, label, htext, hlabel⟩
    rw [htext, afterLast_append (dot_notMem_toplabel hlabel)] at hbad
    rcases hbad with hdot | htop
    · exact absurd (List.mem_append_right _ List.mem_cons_self) hdot
    · exact absurd (isToplabel_iff.mpr hlabel) htop
  · rw [if_neg hbad]
    rw [not_or, not_not, not_not] at hbad
    obtain ⟨start, label, htext, _, hlast⟩ := exists_afterLast hbad.1
    refine ⟨fun _ => ⟨start, label, htext, ?_⟩, fun _ => rfl⟩
    rw [hlast] at hbad
    exact isToplabel_iff.mp hbad.2

theorem checkEnd_not {input : Text} {before : List MacroToken} {token : MacroToken}
    (h : NotLiteral token) : checkEnd input (before ++ [token]) = .ok (before ++ [token]) := by
  unfold checkEnd
  rw [List.getLast?_concat]
  cases token with
  | literal text => exact absurd rfl (h text)
  | escape => rfl
  | macroExpand => rfl

theorem checkEnd_eq_ok {input : Text} {tokens out : List MacroToken}
    (h : checkEnd input tokens = .ok out) : out = tokens := by
  unfold checkEnd at h
  split at h
  · cases h
  · split_ifs at h
    · cases h
    · exact (Except.ok.inj h).symm
  · exact (Except.ok.inj h).symm

/-- **`parseDomainSpec` reads exactly the domain-specs.** -/
theorem parseDomainSpec_eq_ok {s : Text} {tokens : List MacroToken} :
    parseDomainSpec s = .ok tokens ↔ DomainSpec s tokens := by
  unfold parseDomainSpec
  constructor
  · intro h
    cases hparse : parseMacroString s false with
    | error e =>
      rw [hparse] at h
      cases h
    | ok read =>
      rw [hparse] at h
      change checkEnd s read = .ok tokens at h
      obtain rfl := checkEnd_eq_ok h
      have hread := parseMacroString_eq_ok.mp hparse
      refine ⟨hread, ?_⟩
      rcases hread.last with ⟨_, rfl⟩ | ⟨body, e, before, token, rfl, rfl, hbody, he⟩ |
        ⟨body, text, before, rfl, rfl, hbody, htext⟩
      · cases h
      · exact ⟨body, e, rfl, ⟨before, hbody⟩, .expand he⟩
      · obtain ⟨start, label, hdrop, hlabel⟩ := checkEnd_literal.mp h
        have hstart : ∃ t, MacroString false (body ++ start) t := by
          refine hbody.append (macroString_literals fun c hc => htext c ?_)
          rcases dropDot_spec text with heq | heq
          · rw [heq, hdrop]
            exact List.mem_append_left _ hc
          · rw [heq, hdrop]
            exact List.mem_append_left _ (List.mem_append_left _ hc)
        rcases dropDot_spec text with heq | heq
        · refine ⟨body ++ start, '.' :: label, ?_, hstart, .label hlabel⟩
          rw [List.append_assoc, ← hdrop, ← heq]
        · refine ⟨body ++ start, '.' :: (label ++ ['.']), ?_, hstart, .dotted hlabel⟩
          rw [heq, hdrop]
          simp only [List.append_assoc, List.cons_append]
  · rintro ⟨htokens, body, stop, rfl, ⟨bodyTokens, hbody⟩, hstop⟩
    rw [parseMacroString_eq_ok.mpr htokens]
    show checkEnd (body ++ stop) tokens = .ok tokens
    have hlabel : ∀ u : Text, (∀ c ∈ u, IsLiteral c) → u ≠ [] →
        (∀ text, ∃ start label, dropDot (text ++ u) = start ++ '.' :: label ∧ Toplabel label) →
        u = stop → checkEnd (body ++ stop) tokens = .ok tokens := by
      rintro u hu hne hdrop rfl
      obtain ⟨before, text, hstring⟩ := hbody.append_literals hu hne
      obtain rfl := htokens.unique hstring
      exact checkEnd_literal.mpr (hdrop text)
    cases hstop with
    | expand he =>
      obtain rfl := htokens.unique (hbody.append_expand he)
      exact checkEnd_not (notLiteral_of_expand he)
    | @label label h =>
      refine hlabel ('.' :: label) ?_ (List.cons_ne_nil _ _) (fun text => ?_) rfl
      · exact List.forall_mem_cons.mpr ⟨by unfold IsLiteral; decide, isLiteral_toplabel h⟩
      · exact ⟨text, label, (dropDot_append h).1, h⟩
    | @dotted label h =>
      have hdot : IsLiteral '.' := by
        unfold IsLiteral
        decide
      refine hlabel ('.' :: (label ++ ['.'])) ?_ (List.cons_ne_nil _ _) (fun text => ?_) rfl
      · refine List.forall_mem_cons.mpr ⟨hdot, fun c hc => ?_⟩
        rcases List.mem_append.mp hc with hc | hc
        · exact isLiteral_toplabel h c hc
        · rw [List.mem_singleton.mp hc]
          exact hdot
      · exact ⟨text, label, (dropDot_append h).2, h⟩

end BunMail.Spf
