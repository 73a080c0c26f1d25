import BunMail.Domains.SpfEvaluator

/-!
# What SPF evaluation means

The rules of RFC 7208 without its limits on terms and void lookups: a reading of each mechanism, with what it
charges, and the derivations of includes, redirects and records.  A zone whose includes go in a circle has no
derivation.
-/

namespace BunMail.Spf

open Text Metered

/-- What the limits count. -/
inductive Charge
  | term | void
  deriving DecidableEq

abbrev Part (α : Type) : Type := Reading Charge ErrorResult α

variable (c : Context)

/-! ## Lookups -/

/-- A void lookup is charged, a failed one is a temporary error. -/
def readRecords {α : Type} : Answer α → Part (List α)
  | .ok records => .done records
  | .error _ => .fail .temperror
  | .void => ([.void], .ok [])

/-- The addresses of a name in the client's family. -/
def addressAnswer (name : Text) : Answer Text :=
  answerOf (if c.ip.family = .four then c.resolver.resolve4 name else c.resolver.resolve6 name)

/-- The names of the first ten PTR records that have the client's address: section 5.5. -/
def readPtr : Answer Text → Part (List Text)
  | .error _ => .done []
  | .void => ([.void], .ok [])
  | .ok records => .done ((((records.take MAX_NAMES_PER_ANSWER).map (canonicalName c)).filter (· ≠ [])).filter
      fun name => (addressAnswer c name).hasClient c)

def readNames : Part (List Text) := readPtr c (answerOf (c.resolver.resolvePtr (reverseName c.ip)))

/-- A part that needs no lookup. -/
def readLift {α : Type} : Except SpfError α → Part α
  | .ok a => .done a
  | .error e => .fail e.result

/-- The value of `%{p}`, which is a term of its own: section 7.3. -/
def readPtrName (tokens : List MacroToken) (domain : Text) : Part (Option Text) :=
  if usesPtr tokens then
    (Reading.charge .term).andThen fun _ => (readNames c).andThen fun names =>
      .done (some (choosePtrName names (canonicalName c domain)))
  else .done none

/-- The name of a domain-spec: section 7. -/
def readTarget (tokens : List MacroToken) (domain : Text) : Part (Option Text) :=
  (readPtrName c tokens domain).andThen fun ptrName =>
    (readLift (expandMacros tokens (macroValues c domain ptrName))).andThen fun expanded => .done (targetName expanded)

def readMechanismTarget (domainSpec : Option (List MacroToken)) (domain : Text) : Part (Option Text) :=
  domainSpec.elim (.done (some domain)) fun tokens => readTarget c tokens domain

/-- The first host with the client's address, before any host whose lookup fails. -/
def readHosts (length : ℕ) : List Text → Part Bool
  | [] => .done false
  | host :: hosts =>
    match addressAnswer c host with
    | .error _ => .fail .temperror
    | .void => readHosts length hosts
    | .ok addresses => if matchesAddress c addresses length then .done true else readHosts length hosts

/-! ## Mechanisms -/

/-- A term with a target; one that has none does not match. -/
def readCounted (target : Part (Option Text)) (found : Text → Part Bool) : Part Bool :=
  (Reading.charge .term).andThen fun _ => target.andThen fun target => target.elim (.done false) found

/-- The mechanisms but `include`: sections 5.1 and 5.3 to 5.7. -/
def readKind (domain : Text) : MechanismKind → Option (Part Bool)
  | .all => some (.done true)
  | .ip4 network length | .ip6 network length => some (.done (inNetwork c.ip network length))
  | .a domainSpec cidr4 cidr6 => some (readCounted (readMechanismTarget c domainSpec domain) fun target =>
      (readRecords (addressAnswer c target)).andThen fun addresses =>
        .done (matchesAddress c addresses (familyLength c cidr4 cidr6)))
  | .mx domainSpec cidr4 cidr6 => some (readCounted (readMechanismTarget c domainSpec domain) fun target =>
      (readRecords (answerOf (c.resolver.resolveMx target))).andThen fun records =>
        if MAX_NAMES_PER_ANSWER < (mxHosts records).length then .fail .permerror
        else readHosts c (familyLength c cidr4 cidr6) (mxHosts records))
  | .ptr domainSpec => some (readCounted (readMechanismTarget c domainSpec domain) fun target =>
      (readNames c).andThen fun names => .done (names.any fun name =>
        name = canonicalName c target || decide ('.' :: canonicalName c target <:+ name)))
  | .exists_ domainSpec => some (readCounted (readTarget c domainSpec domain) fun target =>
      (readRecords (answerOf (c.resolver.resolve4 target))).andThen fun records => .done (!records.isEmpty))
  | .include_ _ => none

/-- Section 5.2: what an include makes of the result of its target. -/
def SpfResult.included : SpfResult → Except ErrorResult Bool
  | .pass => .ok true
  | .fail | .softfail | .neutral => .ok false
  | .temperror => .error .temperror
  | .permerror | .none => .error .permerror

/-- Section 6.1: what a redirect makes of the result of its target. -/
def SpfResult.redirected : SpfResult → SpfResult
  | .none => .permerror
  | result => result

/-! ## Derivations -/

mutual

/-- `check_host()` of a domain: sections 4.4 to 4.6. -/
inductive Host : Text → List Charge → SpfResult → Prop
  | failed {domain code : Text} : answerOf (c.resolver.resolveTxt domain) = .error code → Host domain [] .temperror
  | none {domain : Text} : (∀ code, answerOf (c.resolver.resolveTxt domain) ≠ .error code) →
      spfRecords (answerOf (c.resolver.resolveTxt domain)) = [] → Host domain [] .none
  | several {domain : Text} : 1 < (spfRecords (answerOf (c.resolver.resolveTxt domain))).length →
      Host domain [] .permerror
  | malformed {domain text : Text} {e : SpfError} : spfRecords (answerOf (c.resolver.resolveTxt domain)) = [text] →
      parseSpfRecord text = .error e → Host domain [] e.result.result
  | record {domain text : Text} {record : SpfRecord} {charges : List Charge} {result : SpfResult} :
      spfRecords (answerOf (c.resolver.resolveTxt domain)) = [text] → parseSpfRecord text = .ok record →
      Directives domain record.redirect record.mechanisms charges result → Host domain charges result

/-- The first mechanism that matches decides, and without one the redirect. -/
inductive Directives : Text → Option (List MacroToken) → List SpfMechanism → List Charge → SpfResult → Prop
  | decides {domain : Text} {redirect : Option (List MacroToken)} {mechanism : SpfMechanism}
      {mechanisms : List SpfMechanism} {charges : List Charge} : Match domain mechanism.kind charges (.ok true) →
      Directives domain redirect (mechanism :: mechanisms) charges mechanism.qualifier.result
  | passes {domain : Text} {redirect : Option (List MacroToken)} {mechanism : SpfMechanism}
      {mechanisms : List SpfMechanism} {charges charges' : List Charge} {result : SpfResult} :
      Match domain mechanism.kind charges (.ok false) → Directives domain redirect mechanisms charges' result →
      Directives domain redirect (mechanism :: mechanisms) (charges ++ charges') result
  | fails {domain : Text} {redirect : Option (List MacroToken)} {mechanism : SpfMechanism}
      {mechanisms : List SpfMechanism} {charges : List Charge} {e : ErrorResult} :
      Match domain mechanism.kind charges (.error e) →
      Directives domain redirect (mechanism :: mechanisms) charges e.result
  | neutral {domain : Text} : Directives domain none [] [] .neutral
  | redirectFails {domain : Text} {redirect : List MacroToken} {e : ErrorResult} :
      (readTarget c redirect domain).2 = .error e →
      Directives domain (some redirect) [] (.term :: (readTarget c redirect domain).1) e.result
  | redirectInvalid {domain : Text} {redirect : List MacroToken} : (readTarget c redirect domain).2 = .ok none →
      Directives domain (some redirect) [] (.term :: (readTarget c redirect domain).1) .permerror
  | redirect {domain target : Text} {redirect : List MacroToken} {charges : List Charge} {result : SpfResult} :
      (readTarget c redirect domain).2 = .ok (some target) → Host target charges result →
      Directives domain (some redirect) [] (.term :: ((readTarget c redirect domain).1 ++ charges)) result.redirected

/-- Whether a mechanism matches. -/
inductive Match : Text → MechanismKind → List Charge → Except ErrorResult Bool → Prop
  | plain {domain : Text} {kind : MechanismKind} {part : Part Bool} : readKind c domain kind = some part →
      Match domain kind part.1 part.2
  | includeFails {domain : Text} {tokens : List MacroToken} {e : ErrorResult} :
      (readTarget c tokens domain).2 = .error e →
      Match domain (.include_ tokens) (.term :: (readTarget c tokens domain).1) (.error e)
  | includeInvalid {domain : Text} {tokens : List MacroToken} : (readTarget c tokens domain).2 = .ok none →
      Match domain (.include_ tokens) (.term :: (readTarget c tokens domain).1) (.error .permerror)
  | included {domain target : Text} {tokens : List MacroToken} {charges : List Charge} {result : SpfResult} :
      (readTarget c tokens domain).2 = .ok (some target) → Host target charges result →
      Match domain (.include_ tokens) (.term :: ((readTarget c tokens domain).1 ++ charges)) result.included

end

end BunMail.Spf
