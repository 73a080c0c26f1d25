import BunMail.Domains.SpfSyntax

/-!
# The grammar of SPF records

The collected ABNF of RFC 7208, section 12, as derivations, with the limits that the text of the RFC
sets to its numbers.  A derivation of a macro-string gives its tokens, literal characters next to one
another making one token; a derivation of a term gives the directive or modifier it is.
-/

namespace BunMail.Spf

open Text Ip

/-! ## Macro-strings -/

/-- `macro-literal = %x21-24 / %x26-7E`. -/
def IsLiteral (c : Char) : Prop := 0x21 ≤ c.toNat ∧ c.toNat ≤ 0x7e ∧ c ≠ '%'

/-- `macro-expand`, with `c`, `r` and `t` only where `exp` allows them; a number of parts is not zero. -/
inductive MacroExpand (exp : Bool) : Text → MacroToken → Prop
  | braces {c : Char} {letter : MacroLetter} {digits r delimiters : Text}
      (hletter : c.toLower = letter.char) (hexp : letter ∈ EXP_ONLY_LETTERS → exp = true)
      (hdigits : ∀ d ∈ digits, d.isDigit = true)
      (hnonzero : digits ≠ [] → ofDecimal digits ≠ 0) (hr : r = [] ∨ r = ['r'] ∨ r = ['R'])
      (hdelimiters : ∀ d ∈ delimiters, isDelimiter d = true) :
      MacroExpand exp ('%' :: '\x7b' :: c :: (digits ++ (r ++ (delimiters ++ ['\x7d']))))
        (.macroExpand letter c.isUpper (if digits = [] then none else some (ofDecimal digits))
          (decide (r ≠ [])) delimiters)
  | percent : MacroExpand exp ['%', '%'] (.escape ['%'])
  | space : MacroExpand exp ['%', '_'] (.escape [' '])
  | encoded : MacroExpand exp ['%', '-'] (.escape ['%', '2', '0'])

/-- A literal character in front of tokens. -/
def consLiteral (c : Char) : List MacroToken → List MacroToken
  | .literal text :: tokens => .literal (c :: text) :: tokens
  | tokens => .literal [c] :: tokens

/-- `macro-string = *( macro-expand / macro-literal )`. -/
inductive MacroString (exp : Bool) : Text → List MacroToken → Prop
  | nil : MacroString exp [] []
  | literal {c : Char} {s : Text} {tokens : List MacroToken} (h : IsLiteral c)
      (rest : MacroString exp s tokens) : MacroString exp (c :: s) (consLiteral c tokens)
  | expand {e s : Text} {token : MacroToken} {tokens : List MacroToken} (h : MacroExpand exp e token)
      (rest : MacroString exp s tokens) : MacroString exp (e ++ s) (token :: tokens)

/-! ## Domain-specs -/

/-- `toplabel`. -/
inductive Toplabel : Text → Prop
  | word {before after : Text} {c : Char} (hbefore : ∀ d ∈ before, d.isAlphanum = true)
      (hc : c.isAlpha = true) (hafter : ∀ d ∈ after, d.isAlphanum = true) :
      Toplabel (before ++ c :: after)
  | dashed {before middle : Text} {c : Char} (hne : before ≠ [])
      (hbefore : ∀ d ∈ before, d.isAlphanum = true)
      (hmiddle : ∀ d ∈ middle, d.isAlphanum = true ∨ d = '-') (hc : c.isAlphanum = true) :
      Toplabel (before ++ '-' :: (middle ++ [c]))

/-- `domain-end`. -/
inductive DomainEnd : Text → Prop
  | label {label : Text} (h : Toplabel label) : DomainEnd ('.' :: label)
  | dotted {label : Text} (h : Toplabel label) : DomainEnd ('.' :: (label ++ ['.']))
  | expand {e : Text} {token : MacroToken} (h : MacroExpand false e token) : DomainEnd e

/-- `domain-spec = macro-string domain-end`. -/
structure DomainSpec (s : Text) (tokens : List MacroToken) : Prop where
  tokens : MacroString false s tokens
  ends : ∃ body stop, s = body ++ stop ∧ (∃ bodyTokens, MacroString false body bodyTokens) ∧
    DomainEnd stop

/-- `[ ":" domain-spec ]`. -/
inductive OptionalSpec : Text → Option (List MacroToken) → Prop
  | absent : OptionalSpec [] none
  | present {s : Text} {tokens : List MacroToken} (h : DomainSpec s tokens) :
      OptionalSpec (':' :: s) (some tokens)

/-! ## Numbers -/

/-- `"0" / %x31-39 0*DIGIT`, with at most so many digits after the first, and a value up to `max`. -/
structure CidrDigits (more max : ℕ) (digits : Text) (n : ℕ) : Prop where
  form : digits = ['0'] ∨ ∃ d rest, digits = d :: rest ∧ d.isDigit = true ∧ d ≠ '0' ∧
    (∀ c ∈ rest, c.isDigit = true) ∧ rest.length ≤ more
  value : n = ofDecimal digits
  le : n ≤ max

/-- An optional length, `max` where there is none. -/
inductive OptionalLength (slashes : Text) (more max : ℕ) : Text → ℕ → Prop
  | absent : OptionalLength slashes more max [] max
  | present {digits : Text} {n : ℕ} (h : CidrDigits more max digits n) :
      OptionalLength slashes more max (slashes ++ digits) n

/-- `qnum`. -/
inductive Qnum : Text → Prop
  | one {a : Char} (ha : a.isDigit = true) : Qnum [a]
  | two {a b : Char} (ha : a.isDigit = true) (hne : a ≠ '0') (hb : b.isDigit = true) : Qnum [a, b]
  | hundred {b c : Char} (hb : b.isDigit = true) (hc : c.isDigit = true) : Qnum ['1', b, c]
  | low {b c : Char} (hb : '0' ≤ b ∧ b ≤ '4') (hc : c.isDigit = true) : Qnum ['2', b, c]
  | high {c : Char} (hc : '0' ≤ c ∧ c ≤ '5') : Qnum ['2', '5', c]

/-- `ip4-network`. -/
inductive Ip4Network : Text → Prop
  | quad {a b c d : Text} (ha : Qnum a) (hb : Qnum b) (hc : Qnum c) (hd : Qnum d) :
      Ip4Network (['.'].intercalate [a, b, c, d])

/-! ## Terms -/

/-- A name in any case. -/
def Named (name : Text) (of : String) : Prop := asciiLower name = of.toList

/-- `mechanism`; the address is the one that `parseIp` gives for the network's text. -/
inductive Mechanism : Text → MechanismKind → Prop
  | all {name : Text} (h : Named name "all") : Mechanism name .all
  | include_ {name spec : Text} {tokens : List MacroToken} (h : Named name "include")
      (hspec : DomainSpec spec tokens) : Mechanism (name ++ ':' :: spec) (.include_ tokens)
  | exists_ {name spec : Text} {tokens : List MacroToken} (h : Named name "exists")
      (hspec : DomainSpec spec tokens) : Mechanism (name ++ ':' :: spec) (.exists_ tokens)
  | a {name spec four six : Text} {tokens : Option (List MacroToken)} {cidr4 cidr6 : ℕ}
      (h : Named name "a") (hspec : OptionalSpec spec tokens)
      (hfour : OptionalLength ['/'] 1 32 four cidr4)
      (hsix : OptionalLength ['/', '/'] 2 128 six cidr6) :
      Mechanism (name ++ (spec ++ (four ++ six))) (.a tokens cidr4 cidr6)
  | mx {name spec four six : Text} {tokens : Option (List MacroToken)} {cidr4 cidr6 : ℕ}
      (h : Named name "mx") (hspec : OptionalSpec spec tokens)
      (hfour : OptionalLength ['/'] 1 32 four cidr4)
      (hsix : OptionalLength ['/', '/'] 2 128 six cidr6) :
      Mechanism (name ++ (spec ++ (four ++ six))) (.mx tokens cidr4 cidr6)
  | ptr {name spec : Text} {tokens : Option (List MacroToken)} (h : Named name "ptr")
      (hspec : OptionalSpec spec tokens) : Mechanism (name ++ spec) (.ptr tokens)
  | ip4 {name network cidr : Text} {address : IpAddress} {length : ℕ} (h : Named name "ip4")
      (hnetwork : Ip4Network network) (haddress : parseIp network = some address)
      (hcidr : OptionalLength ['/'] 1 32 cidr length) :
      Mechanism (name ++ ':' :: (network ++ cidr)) (.ip4 address length)
  | ip6 {name network cidr : Text} {groups : List ℕ} {address : IpAddress} {length : ℕ}
      (h : Named name "ip6") (hnetwork : Spells network groups)
      (haddress : parseIp network = some address)
      (hcidr : OptionalLength ['/'] 2 128 cidr length) :
      Mechanism (name ++ ':' :: (network ++ cidr)) (.ip6 address length)

/-- `[ qualifier ]`. -/
inductive Qualified : Text → Qualifier → Prop
  | absent : Qualified [] .pass
  | pass : Qualified ['+'] .pass
  | fail : Qualified ['-'] .fail
  | softfail : Qualified ['~'] .softfail
  | neutral : Qualified ['?'] .neutral

/-- What a term is. -/
inductive TermValue
  | mechanism (m : SpfMechanism)
  | redirect (tokens : List MacroToken)
  | exp (tokens : List MacroToken)
  | other

/-- `name = ALPHA *( ALPHA / DIGIT / "-" / "_" / "." )`. -/
def ModifierName (name : Text) : Prop :=
  ∃ c rest, name = c :: rest ∧ c.isAlpha = true ∧ ∀ d ∈ rest, d.isAlphanum = true ∨ d ∈ ['-', '_', '.']

/-- `directive / modifier`. -/
inductive Term : Text → TermValue → Prop
  | directive {sign rest : Text} {qualifier : Qualifier} {kind : MechanismKind}
      (hsign : Qualified sign qualifier) (h : Mechanism rest kind) :
      Term (sign ++ rest) (.mechanism { qualifier, term := sign ++ rest, kind })
  | redirect {name spec : Text} {tokens : List MacroToken} (h : Named name "redirect")
      (hspec : DomainSpec spec tokens) : Term (name ++ '=' :: spec) (.redirect tokens)
  | explanation {name spec : Text} {tokens : List MacroToken} (h : Named name "exp")
      (hspec : DomainSpec spec tokens) : Term (name ++ '=' :: spec) (.exp tokens)
  | unknown {name value : Text} {tokens : List MacroToken} (h : ModifierName name)
      (hredirect : ¬ Named name "redirect") (hexp : ¬ Named name "exp")
      (hvalue : MacroString true value tokens) : Term (name ++ '=' :: value) .other

/-- `*( 1*SP ( directive / modifier ) ) *SP`. -/
inductive Terms : Text → List TermValue → Prop
  | done (n : ℕ) : Terms (List.replicate n ' ') []
  | term {n : ℕ} {t s : Text} {value : TermValue} {values : List TermValue} (h : Term t value)
      (rest : Terms s values) : Terms (List.replicate (n + 1) ' ' ++ (t ++ s)) (value :: values)

/-! ## Records -/

/-- The mechanisms, in order. -/
def TermValue.mechanism? : TermValue → Option SpfMechanism
  | .mechanism m => some m
  | _ => none

/-- The targets of `redirect`. -/
def TermValue.redirect? : TermValue → Option (List MacroToken)
  | .redirect tokens => some tokens
  | _ => none

/-- The targets of `exp`. -/
def TermValue.exp? : TermValue → Option (List MacroToken)
  | .exp tokens => some tokens
  | _ => none

/-- The record that terms derive: `redirect` and `exp` appear once at most. -/
structure Derives (terms : Text) (record : SpfRecord) : Prop where
  values : ∃ values, Terms terms values ∧ (values.filterMap TermValue.redirect?).length ≤ 1 ∧
    (values.filterMap TermValue.exp?).length ≤ 1 ∧
    record.mechanisms = values.filterMap TermValue.mechanism? ∧
    record.redirect = (values.filterMap TermValue.redirect?).head?

end BunMail.Spf
