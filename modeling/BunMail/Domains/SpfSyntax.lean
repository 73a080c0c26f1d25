import BunMail.Domains.SpfAddress

/-!
# SPF records

`spf-syntax.ts`: macro-strings, domain-specs, the terms of a record, and what macros expand to.  A
record holds printable US-ASCII only, which is tested before anything else is read.
-/

namespace BunMail.Spf

open Text Ip

/-- `SpfError["result"]`. -/
inductive ErrorResult
  | permerror | temperror
  deriving DecidableEq

/-- `SpfError`. -/
structure SpfError where
  result : ErrorResult
  message : Text
  deriving DecidableEq

/-- `permerror`. -/
def permerror {α : Type} (message : Text) : Except SpfError α :=
  .error { result := .permerror, message }

/-! ## Macro-strings -/

/-- `MacroLetter`. -/
inductive MacroLetter
  | s | l | o | d | i | p | h | v | c | r | t
  deriving DecidableEq

/-- `MacroToken`.  The number of parts is exact: it is only compared with the number of parts there are. -/
inductive MacroToken
  | literal (text : Text)
  | escape (text : Text)
  | macroExpand (letter : MacroLetter) (urlEscape : Bool) (parts : Option ℕ) (reverse : Bool)
      (delimiters : Text)
  deriving DecidableEq

/-- `isMacroLetter`, as the letter that a character is. -/
def macroLetter? (c : Char) : Option MacroLetter :=
  match c with
  | 's' => some .s
  | 'l' => some .l
  | 'o' => some .o
  | 'd' => some .d
  | 'i' => some .i
  | 'p' => some .p
  | 'h' => some .h
  | 'v' => some .v
  | 'c' => some .c
  | 'r' => some .r
  | 't' => some .t
  | _ => none

/-- `EXP_ONLY_LETTERS`. -/
def EXP_ONLY_LETTERS : List MacroLetter := [.c, .r, .t]

/-- `ESCAPES`. -/
def ESCAPES : Char → Option Text
  | '%' => some ['%']
  | '_' => some [' ']
  | '-' => some ['%', '2', '0']
  | _ => none

/-- The delimiters of a macro. -/
def isDelimiter (c : Char) : Bool := c ∈ ['.', '-', '+', ',', '/', '_', '=']

/-- `(r?)` of `MACRO_BODY`, in either case, and what follows. -/
def cutReverse : Text → Text × Text
  | [] => ([], [])
  | c :: s => if c = 'r' ∨ c = 'R' then ([c], s) else ([], c :: s)

/-- `MACRO_BODY`: the letter, the digits, the `r` and the delimiters. -/
def macroBody? : Text → Option (Char × Text × Text × Text)
  | [] => none
  | c :: s =>
    let (r, delimiters) := cutReverse (s.dropWhile Char.isDigit)
    if c.isAlpha && delimiters.all isDelimiter then
      some (c, s.takeWhile Char.isDigit, r, delimiters)
    else none

/-- `%{body}`. -/
def braced (body : Text) : Text := '%' :: '\x7b' :: body ++ ['\x7d']

/-- The token of `%{body}`. -/
def parseMacro (body : Text) (allowExpLetters : Bool) : Except SpfError MacroToken :=
  match macroBody? body with
  | none => permerror ("invalid macro ".toList ++ braced body)
  | some (c, digits, r, delimiters) =>
    match macroLetter? c.toLower with
    | none => permerror ("invalid macro ".toList ++ braced body)
    | some letter =>
      if letter ∈ EXP_ONLY_LETTERS ∧ ¬ allowExpLetters then
        permerror ("macro ".toList ++ braced body ++ " is only allowed in explanation text".toList)
      else if digits ≠ [] ∧ ofDecimal digits = 0 then
        permerror ("macro ".toList ++ braced body ++ ": the number of parts must be nonzero".toList)
      else .ok (.macroExpand letter (decide (c ≠ c.toLower))
        (if digits = [] then none else some (ofDecimal digits)) (decide (r ≠ [])) delimiters)

/-- `flush`. -/
def flush (tokens : List MacroToken) (literal : Text) : List MacroToken :=
  if literal = [] then tokens else tokens ++ [.literal literal]

/-- The loop of `parseMacroString`, which passes over `skip` characters before its next turn. -/
def readTokens (allowExpLetters : Bool) : (skip : ℕ) → (tokens : List MacroToken) → (literal : Text) →
    Text → Except SpfError (List MacroToken)
  | _, tokens, literal, [] => .ok (flush tokens literal)
  | skip + 1, tokens, literal, _ :: rest => readTokens allowExpLetters skip tokens literal rest
  | 0, tokens, literal, char :: rest =>
    if char ≠ '%' then
      if char.toNat < 0x21 ∨ 0x7e < char.toNat then
        permerror "a macro-string may only hold visible US-ASCII characters".toList
      else readTokens allowExpLetters 0 tokens (literal ++ [char]) rest
    else
      match rest.head?.bind ESCAPES with
      | some text => readTokens allowExpLetters 1 (flush tokens literal ++ [.escape text]) [] rest
      | none =>
        if rest.head? ≠ some '\x7b' then
          permerror "'%' must be followed by '\x7b', '%', '_' or '-'".toList
        else if '\x7d' ∉ rest.tail then permerror "unterminated macro".toList
        else
          let body := rest.tail.takeWhile (· ≠ '\x7d')
          match parseMacro body allowExpLetters with
          | .error e => .error e
          | .ok token =>
            readTokens allowExpLetters (body.length + 2) (flush tokens literal ++ [token]) [] rest

/-- `parseMacroString`. -/
def parseMacroString (input : Text) (allowExpLetters : Bool) : Except SpfError (List MacroToken) :=
  readTokens allowExpLetters 0 [] [] input

/-- `TOPLABEL`. -/
def isToplabel (s : Text) : Bool :=
  (s.all Char.isAlphanum && s.any Char.isAlpha) ||
    match s.dropWhile Char.isAlphanum with
    | '-' :: rest =>
      decide (s.takeWhile Char.isAlphanum ≠ []) && rest.all (fun c => c.isAlphanum || c == '-') &&
        rest.getLast?.any Char.isAlphanum
    | _ => false

/-- One trailing dot dropped. -/
def dropDot (s : Text) : Text := if s.getLast? = some '.' then s.dropLast else s

/-- A domain-spec ends in a macro, or in a dot and a toplabel. -/
def checkEnd (input : Text) (tokens : List MacroToken) : Except SpfError (List MacroToken) :=
  match tokens.getLast? with
  | none => permerror "empty domain-spec".toList
  | some (.literal text) =>
    if '.' ∉ dropDot text ∨ ¬ isToplabel (afterLast '.' (dropDot text)) then
      permerror ("invalid domain-spec ".toList ++ input)
    else .ok tokens
  | some _ => .ok tokens

/-- `parseDomainSpec`. -/
def parseDomainSpec (input : Text) : Except SpfError (List MacroToken) :=
  parseMacroString input false >>= checkEnd input

/-! ## Expansion -/

/-- `MacroValues`. -/
structure MacroValues where
  sender : Text
  localPart : Text
  senderDomain : Text
  domain : Text
  ip : IpAddress
  helo : Text
  ptrName : Option Text

/-- A character that `urlEscape` leaves. -/
def isUnreserved (c : Char) : Bool := c.isAlphanum || c ∈ ['-', '.', '_', '~']

/-- `urlEscape`. -/
def urlEscape (value : Text) : Text :=
  (value.flatMap fun c => String.utf8EncodeChar c).flatMap fun byte =>
    let char := Char.ofNat byte.toNat
    if isUnreserved char then [char]
    else ['%', (Nat.digitChar (byte.toNat / 16)).toUpper, (Nat.digitChar (byte.toNat % 16)).toUpper]

/-- `splitParts`. -/
def splitParts (value delimiters : Text) : List Text :=
  let split := if delimiters = [] then ['.'] else delimiters
  value.splitOnP fun c => decide (c ∈ split)

/-- The name of a macro letter. -/
def MacroLetter.char : MacroLetter → Char
  | .s => 's'
  | .l => 'l'
  | .o => 'o'
  | .d => 'd'
  | .i => 'i'
  | .p => 'p'
  | .h => 'h'
  | .v => 'v'
  | .c => 'c'
  | .r => 'r'
  | .t => 't'

/-- `letterValue`. -/
def letterValue (letter : MacroLetter) (values : MacroValues) : Except SpfError Text :=
  match letter with
  | .s => .ok values.sender
  | .l => .ok values.localPart
  | .o => .ok values.senderDomain
  | .d => .ok values.domain
  | .i => .ok (macroIp values.ip)
  | .p => .ok (values.ptrName.getD "unknown".toList)
  | .h => .ok values.helo
  | .v => .ok (if values.ip.family = .four then "in-addr".toList else "ip6".toList)
  | letter => permerror
    ("macro letter ".toList ++ letter.char :: " is only allowed in explanation text".toList)

/-- The value of one token. -/
def expandToken (values : MacroValues) : MacroToken → Except SpfError Text
  | .literal text => .ok text
  | .escape text => .ok text
  | .macroExpand letter escaped parts reverse delimiters => do
    let value ← letterValue letter values
    let result :=
      if reverse ∨ parts ≠ none ∨ delimiters ≠ [] then
        let split := splitParts value delimiters
        let ordered := if reverse then split.reverse else split
        join ['.'] (parts.elim ordered fun n =>
          if n < ordered.length then ordered.drop (ordered.length - n) else ordered)
      else value
    .ok (if escaped then urlEscape result else result)

/-- `expandMacros`. -/
def expandMacros (tokens : List MacroToken) (values : MacroValues) : Except SpfError Text :=
  (tokens.mapM (expandToken values)).map List.flatten

/-- `MAX_NAME_LENGTH`. -/
def MAX_NAME_LENGTH : ℕ := 253

/-- A label of a name that can be queried. -/
def isLabelChar (c : Char) : Bool :=
  (decide (0x20 ≤ c.toNat) && decide (c.toNat ≤ 0x2d)) ||
    (decide (0x2f ≤ c.toNat) && decide (c.toNat ≤ 0x7e))

/-- `isValidDomainName`. -/
def isValidDomainName (name : Text) : Bool :=
  let labels := name.splitOn '.'
  decide (name ≠ []) && decide (utf16Length name ≤ MAX_NAME_LENGTH) && decide (2 ≤ labels.length) &&
    labels.all (fun label => decide (label ≠ []) && decide (utf16Length label ≤ 63)) &&
    labels.all (fun label => label.all isLabelChar) && isToplabel (labels.getLastD [])

/-- The loop of `targetName`; each turn drops a label. -/
def fitName : (turns : ℕ) → Text → Text
  | 0, name => name
  | turns + 1, name =>
    if MAX_NAME_LENGTH < utf16Length name ∧ '.' ∈ name then
      fitName turns (name.dropWhile (· ≠ '.')).tail
    else name

/-- `targetName`. -/
def targetName (expanded : Text) : Option Text :=
  let name := fitName expanded.length (dropDot expanded)
  if isValidDomainName name then some name else none

/-! ## Terms -/

/-- `Qualifier`. -/
inductive Qualifier
  | pass | fail | softfail | neutral
  deriving DecidableEq

/-- What follows the qualifier of an `SpfMechanism`. -/
inductive MechanismKind
  | all
  | include_ (domainSpec : List MacroToken)
  | exists_ (domainSpec : List MacroToken)
  | a (domainSpec : Option (List MacroToken)) (cidr4 cidr6 : ℕ)
  | mx (domainSpec : Option (List MacroToken)) (cidr4 cidr6 : ℕ)
  | ptr (domainSpec : Option (List MacroToken))
  | ip4 (network : IpAddress) (length : ℕ)
  | ip6 (network : IpAddress) (length : ℕ)
  deriving DecidableEq

/-- `SpfMechanism`. -/
structure SpfMechanism where
  qualifier : Qualifier
  term : Text
  kind : MechanismKind
  deriving DecidableEq

/-- `SpfRecord`. -/
structure SpfRecord where
  mechanisms : List SpfMechanism
  redirect : Option (List MacroToken)
  deriving DecidableEq

/-- `isSpfRecord`. -/
def isSpfRecord (text : Text) : Bool :=
  decide (asciiLower (text.take 6) = "v=spf1".toList) &&
    (decide (text.length = 6) || decide (text[6]? = some ' '))

/-- A character of a modifier's name. -/
def isNameChar (c : Char) : Bool := c.isAlphanum || c ∈ ['.', '_', '-']

/-- `MODIFIER`: the name and the value. -/
def modifier? (term : Text) : Option (Text × Text) :=
  let name := term.takeWhile isNameChar
  match term.dropWhile isNameChar with
  | '=' :: value => if name.head?.any Char.isAlpha then some (name, value) else none
  | _ => none

/-- `qualifierOf` the character that may start a directive. -/
def qualifierOf : Char → Option Qualifier
  | '+' => some .pass
  | '-' => some .fail
  | '~' => some .softfail
  | '?' => some .neutral
  | _ => none

/-- `DIRECTIVE`: the qualifier, the name and the rest. -/
def directive (term : Text) : Qualifier × Text × Text :=
  let qualifier := term.head?.bind qualifierOf
  let unqualified := if qualifier.isSome then term.tail else term
  let inName (c : Char) : Bool := c ≠ ':' && c ≠ '/'
  (qualifier.getD .pass, unqualified.takeWhile inName, unqualified.dropWhile inName)

/-- The second group of `DUAL_CIDR_TERM`: the digits of the length, and what follows. -/
def cutLength : Text → Option Text × Text
  | '/' :: s =>
    if s.takeWhile Char.isDigit = [] then (none, '/' :: s)
    else (some (s.takeWhile Char.isDigit), s.dropWhile Char.isDigit)
  | s => (none, s)

/-- The third group of `DUAL_CIDR_TERM`, up to the end. -/
def lastLength? : Text → Option (Option Text)
  | [] => some none
  | '/' :: '/' :: digits =>
    if digits ≠ [] ∧ digits.all Char.isDigit then some (some digits) else none
  | _ => none

/-- `DUAL_CIDR_TERM` after the domain-spec: the digits of the two lengths. -/
def dualCidr? (s : Text) : Option (Option Text × Option Text) :=
  (lastLength? (cutLength s).2).map fun six => ((cutLength s).1, six)

/-- `DUAL_CIDR_TERM` at its first group, which is as short as can be. -/
def lazySpec? : Text → Option (Text × Option Text × Option Text)
  | [] => (dualCidr? []).map fun cidr => ([], cidr)
  | c :: s =>
    match dualCidr? (c :: s) with
    | some cidr => some ([], cidr)
    | none => (lazySpec? s).map fun found => (c :: found.1, found.2)

/-- `DUAL_CIDR_TERM`. -/
def dualCidrTerm? : Text → Option (Option Text × Option Text × Option Text)
  | ':' :: s => (lazySpec? s).map fun found => (some found.1, found.2)
  | s => (dualCidr? s).map fun cidr => (none, cidr)

/-- What is before the first slash, and what follows it. -/
def cutSlash (s : Text) : Text × Option Text :=
  (s.takeWhile (· ≠ '/'), (s.dropWhile (· ≠ '/')).head?.map fun _ => (s.dropWhile (· ≠ '/')).tail)

/-- `IP_TERM`: the network and what follows its slash. -/
def ipTerm? : Text → Option (Text × Option Text)
  | ':' :: s => some (cutSlash s)
  | _ => none

/-- `QNUM`. -/
def isQnum : Text → Bool
  | [a, b, c] =>
    (a == '2' && b == '5' && decide ('0' ≤ c) && decide (c ≤ '5')) ||
      (a == '2' && decide ('0' ≤ b) && decide (b ≤ '4') && c.isDigit) ||
      (a == '1' && b.isDigit && c.isDigit)
  | [a, b] => a.isDigit && a != '0' && b.isDigit
  | [a] => a.isDigit
  | _ => false

/-- `IP4_NETWORK`. -/
def isIp4Network (s : Text) : Bool :=
  decide ((s.splitOn '.').length = 4) && (s.splitOn '.').all isQnum

/-- `cidrLength`. -/
def cidrLength (text : Option Text) (max : ℕ) : Except SpfError ℕ :=
  match text with
  | none => .ok max
  | some text =>
    if ¬ isNumeral text ∨ max < ofDecimal text then
      permerror ("invalid CIDR length /".toList ++ text)
    else .ok (ofDecimal text)

/-- What `a` and `mx` hold. -/
def parseDual (term rest : Text)
    (kind : Option (List MacroToken) → ℕ → ℕ → MechanismKind) : Except SpfError MechanismKind :=
  match dualCidrTerm? rest with
  | none => permerror ("invalid term ".toList ++ term)
  | some (spec, four, six) => do
    let domainSpec ← spec.elim (.ok none) fun text => (parseDomainSpec text).map some
    let cidr4 ← cidrLength four 32
    let cidr6 ← cidrLength six 128
    .ok (kind domainSpec cidr4 cidr6)

/-- What `include` and `exists` hold. -/
def parseNeeded (term name rest : Text) (kind : List MacroToken → MechanismKind) :
    Except SpfError MechanismKind :=
  match rest with
  | ':' :: spec => (parseDomainSpec spec).map kind
  | _ => permerror (name ++ " needs a domain-spec: ".toList ++ term)

/-- What `ptr` holds. -/
def parsePtr (term rest : Text) : Except SpfError MechanismKind :=
  match rest with
  | [] => .ok (.ptr none)
  | ':' :: spec => (parseDomainSpec spec).map fun tokens => .ptr (some tokens)
  | _ => permerror ("invalid term ".toList ++ term)

/-- What `ip4` and `ip6` hold: `valid` tests the text and the address it spells. -/
def parseNetwork (term rest : Text) (valid : Text → IpAddress → Bool) (max : ℕ)
    (kind : IpAddress → ℕ → MechanismKind) : Except SpfError MechanismKind :=
  match ipTerm? rest with
  | none => permerror ("invalid network in ".toList ++ term)
  | some (text, digits) =>
    match parseIp text with
    | none => permerror ("invalid network in ".toList ++ term)
    | some network =>
      if valid text network then (cidrLength digits max).map (kind network)
      else permerror ("invalid network in ".toList ++ term)

/-- What a mechanism of a name holds. -/
def parseKind (term name rest : Text) : Except SpfError MechanismKind :=
  if asciiLower name = "all".toList then
    if rest ≠ [] then permerror ("invalid term ".toList ++ term) else .ok .all
  else if asciiLower name = "include".toList then parseNeeded term "include".toList rest .include_
  else if asciiLower name = "exists".toList then parseNeeded term "exists".toList rest .exists_
  else if asciiLower name = "a".toList then parseDual term rest .a
  else if asciiLower name = "mx".toList then parseDual term rest .mx
  else if asciiLower name = "ptr".toList then parsePtr term rest
  else if asciiLower name = "ip4".toList then
    parseNetwork term rest (fun text network => isIp4Network text && network.family = .four) 32 .ip4
  else if asciiLower name = "ip6".toList then
    parseNetwork term rest (fun _ network => network.family = .six) 128 .ip6
  else permerror ("unknown mechanism in ".toList ++ term)

/-- `parseMechanism`. -/
def parseMechanism (term : Text) : Except SpfError SpfMechanism :=
  let (qualifier, name, rest) := directive term
  (parseKind term name rest).map fun kind => { qualifier, term, kind }

/-! ## Records -/

/-- The variables of the loop over the terms. -/
structure RecordState where
  mechanisms : List SpfMechanism
  redirect : Option (List MacroToken)
  seenRedirect : ℕ
  seenExp : ℕ

/-- One turn of the loop over the terms. -/
def addTerm (s : RecordState) (term : Text) : Except SpfError RecordState :=
  if term = [] then .ok s
  else
    match modifier? term with
    | none => (parseMechanism term).map fun m => { s with mechanisms := s.mechanisms ++ [m] }
    | some (name, value) =>
      if asciiLower name = "redirect".toList then
        (parseDomainSpec value).map fun tokens =>
          { s with seenRedirect := s.seenRedirect + 1, redirect := some tokens }
      else if asciiLower name = "exp".toList then
        (parseDomainSpec value).map fun _ => { s with seenExp := s.seenExp + 1 }
      else (parseMacroString value true).map fun _ => s

/-- `parseSpfRecord`. -/
def parseSpfRecord (text : Text) : Except SpfError SpfRecord := do
  if text.any fun c => c.toNat < 0x20 || 0x7e < c.toNat then
    permerror "the record holds a character outside printable US-ASCII".toList
  else
    let s ← ((text.drop 6).splitOn ' ').foldlM addTerm
      { mechanisms := [], redirect := none, seenRedirect := 0, seenExp := 0 }
    if 1 < s.seenRedirect then permerror "more than one redirect modifier".toList
    else if 1 < s.seenExp then permerror "more than one exp modifier".toList
    else .ok { mechanisms := s.mechanisms, redirect := s.redirect }

end BunMail.Spf
