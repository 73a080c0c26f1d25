import BunMail.Domains.SpfSyntax
import BunMail.Lib.Metered

/-!
# SPF evaluation

`check_host()` of `spf-evaluator.ts`.  Lookups answer at once and the same way for the whole evaluation, and
the deadline never fires.  An include or a redirect takes one of the turns the evaluation is given; without
one left it ends in a fault of its own.
-/

namespace BunMail.Spf

open Text Metered

/-! ## The resolver -/

/-- A lookup: its records, or the code of the error it rejects with. -/
abbrev Lookup (α : Type) : Type := Except (Option Text) (List α)

structure MxRecord where
  exchange : Text
  priority : ℕ
  deriving DecidableEq

/-- `SpfDnsResolver`. -/
structure SpfDnsResolver where
  resolveTxt : Text → Lookup (List Text)
  resolve4 : Text → Lookup Text
  resolve6 : Text → Lookup Text
  resolveMx : Text → Lookup MxRecord
  resolvePtr : Text → Lookup Text

/-- `SpfResult`. -/
inductive SpfResult
  | pass | fail | softfail | neutral | none | temperror | permerror
  deriving DecidableEq

/-- `SpfCheckInput`. -/
structure SpfCheckInput where
  ip : Text
  domain : Text
  sender : Text
  helo : Text

/-- `SpfCheckResult`. -/
structure SpfCheckResult where
  result : SpfResult
  reason : Text
  deriving DecidableEq

def MAX_DNS_TERMS : ℕ := 10

def MAX_VOID_LOOKUPS : ℕ := 2

def MAX_NAMES_PER_ANSWER : ℕ := 10

/-- `QUALIFIER_RESULTS`. -/
def Qualifier.result : Qualifier → SpfResult
  | .pass => .pass
  | .fail => .fail
  | .softfail => .softfail
  | .neutral => .neutral

def ErrorResult.result : ErrorResult → SpfResult
  | .permerror => .permerror
  | .temperror => .temperror

/-! ## Evaluations -/

/-- What stays the same during an evaluation, with the script language's `toLowerCase`. -/
structure Context where
  resolver : SpfDnsResolver
  ip : IpAddress
  sender : Text
  localPart : Text
  senderDomain : Text
  helo : Text
  toLowerCase : Text → Text

/-- `Evaluation`: what it counts.  The queries are not counted in the source. -/
structure Evaluation where
  lookups : ℕ
  voids : ℕ
  queries : ℕ
  deriving DecidableEq

/-- What is thrown: an `SpfError`, or nothing the source knows, when no turn is left. -/
inductive Fault
  | spf (error : SpfError)
  | endless

abbrev Eval (α : Type) : Type := Program Evaluation Fault α

def throwSpf {α : Type} (result : ErrorResult) (message : Text) : Eval α :=
  Program.fail (.spf { result, message })

/-- What the parts that need no evaluation throw. -/
def lift {α : Type} : Except SpfError α → Eval α
  | .ok a => Program.done a
  | .error e => Program.fail (.spf e)

/-- `Answer`. -/
inductive Answer (α : Type)
  | ok (records : List α)
  | void
  | error (code : Text)

def VOID_CODES : List Text := ["ENOTFOUND".toList, "ENODATA".toList]

/-- What `query` makes of a lookup. -/
def answerOf {α : Type} : Lookup α → Answer α
  | .ok [] => .void
  | .ok records => .ok records
  | .error code =>
    let code := code.getD []
    if code ∈ VOID_CODES then .void else .error (if code = [] then "unknown error".toList else code)

def query {α : Type} (lookup : Lookup α) : Eval (Answer α) := fun ev =>
  (.ok (answerOf lookup), { ev with queries := ev.queries + 1 })

def countLookup (what : Text) : Eval Unit := fun ev =>
  (if MAX_DNS_TERMS < ev.lookups + 1 then
    .error (.spf ⟨.permerror, "more than 10 DNS lookups (at ".toList ++ what ++ [')']⟩) else .ok (),
    { ev with lookups := ev.lookups + 1 })

def countVoid (name : Text) : Eval Unit := fun ev =>
  (if MAX_VOID_LOOKUPS < ev.voids + 1 then
    .error (.spf ⟨.permerror, "more than 2 void DNS lookups (at ".toList ++ name ++ [')']⟩) else .ok (),
    { ev with voids := ev.voids + 1 })

/-- The error of a failed lookup. -/
def lookupFailed {α : Type} (name code : Text) : Eval α :=
  throwSpf .temperror ("DNS lookup of ".toList ++ name ++ " failed (".toList ++ code ++ [')'])

def recordsOf {α : Type} (answer : Answer α) (name : Text) : Eval (List α) :=
  match answer with
  | .ok records => pure records
  | .error code => lookupFailed name code
  | .void => do
    countVoid name
    pure []

variable (c : Context)

def canonicalName (name : Text) : Text := c.toLowerCase (dropDot name)

def addressQuery (name : Text) : Eval (Answer Text) :=
  query (if c.ip.family = .four then c.resolver.resolve4 name else c.resolver.resolve6 name)

def matchesAddress (addresses : List Text) (length : ℕ) : Bool :=
  addresses.any fun text => (parseIp text).any fun network => inNetwork c.ip network length

/-- The length of an address. -/
def fullLength : ℕ := if c.ip.family = .four then 32 else 128

/-- Whether an answer has the client's address. -/
def Answer.hasClient (answer : Answer Text) : Bool :=
  match answer with
  | .ok addresses => matchesAddress c addresses (fullLength c)
  | _ => false

/-- The address lookups of the names. -/
def filterValid : List Text → Eval (List Text)
  | [] => pure []
  | name :: names => do
    let answer ← addressQuery c name
    let rest ← filterValid names
    pure (if answer.hasClient c then name :: rest else rest)

/-- What `validatedNames` makes of the PTR answer. -/
def namesOf : Answer Text → Eval (List Text)
  | .error _ => pure []
  | .void => do
    countVoid (reverseName c.ip)
    pure []
  | .ok records => filterValid c (((records.take MAX_NAMES_PER_ANSWER).map (canonicalName c)).filter (· ≠ []))

def validatedNames : Eval (List Text) := do
  let answer ← query (c.resolver.resolvePtr (reverseName c.ip))
  namesOf c answer

/-- The name that `%{p}` stands for. -/
def choosePtrName (names : List Text) (target : Text) : Text :=
  ((names.find? (· = target)).or ((names.find? fun name => '.' :: target <:+ name).or names.head?)).getD
    "unknown".toList

def ptrMacroValue (domain : Text) : Eval Text := do
  countLookup "%\x7bp\x7d".toList
  let names ← validatedNames c
  pure (choosePtrName names (canonicalName c domain))

/-- Whether a domain-spec has `%{p}`. -/
def usesPtr (tokens : List MacroToken) : Bool :=
  tokens.any fun token => match token with
    | .macroExpand .p _ _ _ _ => true
    | _ => false

/-- The values of the macros. -/
def macroValues (domain : Text) (ptrName : Option Text) : MacroValues where
  sender := c.sender
  localPart := c.localPart
  senderDomain := c.senderDomain
  domain := domain
  ip := c.ip
  helo := c.helo
  ptrName := ptrName

/-- `ptrName`. -/
def ptrNameOf (tokens : List MacroToken) (domain : Text) : Eval (Option Text) :=
  if usesPtr tokens then do
    let name ← ptrMacroValue c domain
    pure (some name)
  else pure none

def expandTarget (tokens : List MacroToken) (domain : Text) : Eval (Option Text) := do
  let ptrName ← ptrNameOf c tokens domain
  let expanded ← lift (expandMacros tokens (macroValues c domain ptrName))
  pure (targetName expanded)

def mechanismTarget (domainSpec : Option (List MacroToken)) (domain : Text) : Eval (Option Text) :=
  match domainSpec with
  | some tokens => expandTarget c tokens domain
  | none => pure (some domain)

/-- The hosts of an `mx` answer, in priority order and without a null MX. -/
def mxHosts (records : List MxRecord) : List Text :=
  ((records.mergeSort fun left right => left.priority ≤ right.priority).map fun mx => dropDot mx.exchange).filter (· ≠ [])

/-- The loop over the hosts. -/
def anyHost (length : ℕ) : List Text → Eval Bool
  | [] => pure false
  | host :: hosts => do
    let answer ← addressQuery c host
    match answer with
    | .error code => lookupFailed host code
    | .ok addresses => if matchesAddress c addresses length then pure true else anyHost length hosts
    | .void => anyHost length hosts

def matchesMx (target : Text) (length : ℕ) : Eval Bool := do
  let answer ← query (c.resolver.resolveMx target)
  let records ← recordsOf answer target
  if MAX_NAMES_PER_ANSWER < (mxHosts records).length then
    throwSpf .permerror (target ++ " has more than 10 MX records".toList)
  else anyHost c length (mxHosts records)

/-- The length for the client's family. -/
def familyLength (cidr4 cidr6 : ℕ) : ℕ := if c.ip.family = .four then cidr4 else cidr6

/-- What an include makes of the result of its target. -/
def included (term : Text) (inner : SpfCheckResult) : Except SpfError Bool :=
  match inner.result with
  | .pass => .ok true
  | .fail | .softfail | .neutral => .ok false
  | .none => .error { result := .permerror, message := term ++ ": ".toList ++ inner.reason }
  | .temperror => .error { result := .temperror, message := inner.reason }
  | .permerror => .error { result := .permerror, message := inner.reason }

/-- `matches`, with the evaluation of an include's target. -/
def matchesKind (check : Text → Eval SpfCheckResult) (term domain : Text) : MechanismKind → Eval Bool
  | .all => pure true
  | .ip4 network length | .ip6 network length => pure (inNetwork c.ip network length)
  | .a domainSpec cidr4 cidr6 => do
    countLookup term
    let target ← mechanismTarget c domainSpec domain
    match target with
    | none => pure false
    | some target => do
      let answer ← addressQuery c target
      let addresses ← recordsOf answer target
      pure (matchesAddress c addresses (familyLength c cidr4 cidr6))
  | .mx domainSpec cidr4 cidr6 => do
    countLookup term
    let target ← mechanismTarget c domainSpec domain
    match target with
    | none => pure false
    | some target => matchesMx c target (familyLength c cidr4 cidr6)
  | .ptr domainSpec => do
    countLookup term
    let target ← mechanismTarget c domainSpec domain
    match target with
    | none => pure false
    | some target => do
      let names ← validatedNames c
      pure (names.any fun name => name = canonicalName c target || decide ('.' :: canonicalName c target <:+ name))
  | .exists_ domainSpec => do
    countLookup term
    let target ← expandTarget c domainSpec domain
    match target with
    | none => pure false
    | some target => do
      -- an A query for either family
      let answer ← query (c.resolver.resolve4 target)
      let records ← recordsOf answer target
      pure (!records.isEmpty)
  | .include_ domainSpec => do
    countLookup term
    let target ← expandTarget c domainSpec domain
    match target with
    | none => throwSpf .permerror (term ++ ": not a valid domain name".toList)
    | some target => do
      let inner ← check target
      lift (included term inner)

/-- What a redirect makes of the result of its target. -/
def redirected (target : Text) (inner : SpfCheckResult) : SpfCheckResult :=
  if inner.result = .none then
    { result := .permerror, reason := "redirect=".toList ++ target ++ ": ".toList ++ inner.reason }
  else inner

/-- What follows the loop over the mechanisms. -/
def unmatched (check : Text → Eval SpfCheckResult) (domain : Text) : Option (List MacroToken) → Eval SpfCheckResult
  | none => pure { result := .neutral, reason := "no mechanism matched at ".toList ++ domain }
  | some redirect => do
    countLookup "redirect".toList
    let target ← expandTarget c redirect domain
    match target with
    | none => pure { result := .permerror, reason := "redirect: not a valid domain name".toList }
    | some target => do
      let inner ← check target
      pure (redirected target inner)

/-- The loop over the mechanisms, and what follows it. -/
def directives (check : Text → Eval SpfCheckResult) (domain : Text) (redirect : Option (List MacroToken)) :
    List SpfMechanism → Eval SpfCheckResult
  | [] => unmatched c check domain redirect
  | mechanism :: mechanisms => do
    let matched ← matchesKind c check mechanism.term domain mechanism.kind
    if matched then
      pure { result := mechanism.qualifier.result, reason := mechanism.term ++ " matched at ".toList ++ domain }
    else directives check domain redirect mechanisms

/-- The SPF records of a TXT answer. -/
def spfRecords (answer : Answer (List Text)) : List Text :=
  match answer with
  | .ok records => (records.map List.flatten).filter isSpfRecord
  | _ => []

/-- What is done with the SPF records. -/
def evaluateRecords (check : Text → Eval SpfCheckResult) (domain : Text) : List Text → Eval SpfCheckResult
  | [] => pure { result := .none, reason := "no SPF record at ".toList ++ domain }
  | [text] => do
    let record ← lift (parseSpfRecord text)
    directives c check domain record.redirect record.mechanisms
  | _ => pure { result := .permerror, reason := "more than one SPF record at ".toList ++ domain }

/-- What is done with the TXT answer. -/
def evaluateAnswer (check : Text → Eval SpfCheckResult) (domain : Text) (answer : Answer (List Text)) :
    Eval SpfCheckResult :=
  match answer with
  | .error code =>
    pure { result := .temperror, reason := "TXT lookup of ".toList ++ domain ++ " failed (".toList ++ code ++ [')'] }
  | .ok _ | .void => evaluateRecords c check domain (spfRecords answer)

/-- The `try` block of `checkDomain`. -/
def evaluateDomain (check : Text → Eval SpfCheckResult) (domain : Text) : Eval SpfCheckResult := do
  let answer ← query (c.resolver.resolveTxt domain)
  evaluateAnswer c check domain answer

/-- `catch`. -/
def catchSpf (p : Eval SpfCheckResult) : Eval SpfCheckResult := fun ev =>
  match p ev with
  | (.error (.spf e), ev) => (.ok { result := e.result.result, reason := e.message }, ev)
  | out => out

def checkDomain : (turns : ℕ) → Text → Eval SpfCheckResult
  | 0, _ => Program.fail .endless
  | turns + 1, domain => catchSpf (evaluateDomain c (checkDomain turns) domain)

/-- The sender and its parts. -/
def senderParts (sender : Text) : Text × Text :=
  let localPart := if '@' ∈ sender then (sender.rdropWhile (· ≠ '@')).dropLast else []
  (if localPart = [] then "postmaster".toList else localPart, afterLast '@' sender)

def Evaluation.start : Evaluation := { lookups := 0, voids := 0, queries := 0 }

/-- The evaluation's constants, for a client address. -/
def contextOf (resolver : SpfDnsResolver) (toLowerCase : Text → Text) (ip : IpAddress) (input : SpfCheckInput) :
    Context :=
  let (localPart, senderDomain) := senderParts input.sender
  { resolver, ip, localPart, senderDomain, helo := input.helo, toLowerCase
    sender := localPart ++ '@' :: senderDomain }

def checkHost (resolver : SpfDnsResolver) (toLowerCase : Text → Text) (turns : ℕ) (input : SpfCheckInput) :
    Except Fault SpfCheckResult × Evaluation :=
  match clientAddress input.ip with
  | none => (.ok { result := .temperror, reason := "invalid client IP address".toList }, .start)
  | some ip =>
    let domain := dropDot input.domain
    if isValidDomainName domain then checkDomain (contextOf resolver toLowerCase ip input) turns domain .start
    else (.ok { result := .none, reason := "the domain is not a valid domain name".toList }, .start)

end BunMail.Spf
