import BunMail.Emails.MtaSts

/-!
# One `sendMail` call

The call takes the state it starts with, resolves each pending domain, records the domains that
cannot be sent to, and puts the rest into session plans: the domains whose hosts, in their order,
give the same session text share a plan.  Each plan's transactions then get their outcomes, which
are recorded one after the other.
-/

namespace BunMail.Emails

open Recipients SmtpError

/-- The pending transactions of the domains that share their MX hosts. -/
structure MxSessionPlan where
  hosts : List Text
  domains : List Text
  transactions : List MxTransaction
  verifiedTls : Bool
  deriving DecidableEq

/-- What `signMessage` made of the message. -/
inductive SignedMessage
  | unsigned
  | signed
  | uncomposable (error : Thrown)
  /-- The DKIM key of this domain cannot sign: the call throws. -/
  | signingFailed (domain : Text)
  deriving DecidableEq

structure SendMailOptions where
  from_ : Text
  to_ : Text
  cc : Option Text
  bcc : Option Text
  messageId : Text
  existingState : Option DeliveryState
  /-- The email id, with signed return paths on. -/
  returnPath : Option Text

/-- What the world answers to one call. -/
structure MailerEnv where
  dns : Text → DnsAnswers
  policy : Text → Option ActiveMtaStsPolicy
  signed : SignedMessage
  mintReturnPath : Text → ℕ → Text → Text → Option Text
  bucketOf : Text → Text
  hostInputs : MxSessionPlan → Text → HostInputs
  /-- When the outcome of a key is recorded. -/
  recordedAt : Text → Time

/-- Entries the rate budget kept from the attempt, and the shortest wait among them. -/
structure Deferred where
  keys : List Text
  waitMs : ℚ
  deriving DecidableEq

structure SendMailResult where
  messageId : Text
  deliveryState : DeliveryState
  deferred : Option Deferred
  deriving DecidableEq

/-- What the call throws. -/
inductive SendMailError
  | noRecipients
  | dkimSigningFailed (domain : Text)
  deriving DecidableEq

/-- The message of the error. -/
def SendMailError.message : SendMailError → Text
  | .noRecipients => "No valid recipients after parsing to/cc/bcc"
  | .dkimSigningFailed domain =>
    "DKIM key for ".toList ++ domain ++ " cannot be used to sign: not sent unsigned".toList

section SendMail

variable (toLowerCase : Text → Text)

/-! ## The starting state -/

/-- The return paths of the call, with signed return paths on. -/
def returnPathsOf (options : SendMailOptions) (env : MailerEnv) : Option ReturnPaths :=
  options.returnPath.map fun emailId =>
    returnPathsFor toLowerCase env.mintReturnPath emailId options.from_ options.to_ options.cc
      options.bcc

/-- The prior state with its domains, or the state of a first attempt. -/
def priorState (options : SendMailOptions) : DeliveryState :=
  match options.existingState with
  | some state => withDomains toLowerCase state
  | none => buildInitialState toLowerCase options.to_ options.cc options.bcc

/-- The state the attempt works on. -/
def startState (options : SendMailOptions) (env : MailerEnv) : DeliveryState :=
  match returnPathsOf toLowerCase options env with
  | none => priorState toLowerCase options
  | some paths => splitPerRecipient toLowerCase (priorState toLowerCase options) paths

/-- The pending entries with a domain, as domain and key. -/
def pendingEntries (state : DeliveryState) : List (Text × Text) :=
  state.rows.filterMap fun (key, group) =>
    if group.status = .retry then group.domain.map (·, key) else none

/-- Pending keys by recipient domain. -/
def pendingByDomain (state : DeliveryState) : List (Text × List Text) :=
  (Table.groupBy Prod.fst (pendingEntries state)).rows.map fun (domain, entries) =>
    (domain, entries.map Prod.snd)

/-! ## Session plans -/

/-- The text a session is filed under. -/
def sessionId (verifiedTls : Bool) (hosts : List Text) : Text :=
  (if verifiedTls then "mta-sts ".toList else []) ++ Text.join " " hosts

abbrev Sessions := Table (Prod.fst : Text × MxSessionPlan → Text)

/-- What planning builds: the state with the unsent entries recorded, the plans, and the mode of
each domain. -/
structure Plans where
  state : DeliveryState
  sessions : Sessions
  mtaStsByDomain : Table (Prod.fst : Text × Option DeliveryMtaSts → Text)

/-- The transactions of one domain. -/
def transactionsOf (state : DeliveryState) (paths : Option ReturnPaths) (from_ domain : Text)
    (keys : List Text) : List MxTransaction :=
  keys.filterMap fun key => (state.get? key).map fun group =>
    ⟨key, domain, group.recipients, envelopeSenderFor toLowerCase group.recipients paths from_⟩

/-- Where a domain goes on this attempt: the hosts to try, or why it is not sent to. -/
def domainHosts (env : MailerEnv) (domain : Text) : Except Unsent (List Text) :=
  match resolveMxRoute toLowerCase domain (env.dns domain) with
  | .unsent unsent => .error unsent
  | .hosts hosts _ =>
    match policyHosts toLowerCase hosts (env.policy domain) with
    | [] => .error (.retry (domain ++ ": no MX host matches the MTA-STS policy; will retry".toList))
    | h :: hs => .ok (h :: hs)

/-- Plans one pending domain. -/
def planDomain (options : SendMailOptions) (env : MailerEnv) (plans : Plans)
    (pending : Text × List Text) : Plans :=
  let (domain, keys) := pending
  let mtaSts := mtaStsModeOf (env.policy domain)
  let plans := { plans with mtaStsByDomain := plans.mtaStsByDomain.put domain mtaSts }
  match domainHosts toLowerCase env domain with
  | .error unsent =>
    { plans with state := keys.foldl (fun state key =>
        recordUnsent state key unsent mtaSts (env.recordedAt key)) plans.state }
  | .ok hosts =>
    let verifiedTls := enforces (env.policy domain)
    let id := sessionId verifiedTls hosts
    let plan := (plans.sessions.get? id).getD ⟨hosts, [], [], verifiedTls⟩
    { plans with sessions := plans.sessions.put id { plan with
        domains := plan.domains ++ [domain]
        transactions := plan.transactions ++ transactionsOf toLowerCase plans.state
          (returnPathsOf toLowerCase options env) options.from_ domain keys } }

/-- The plans of a call that starts with `state`. -/
def planSessions (options : SendMailOptions) (env : MailerEnv) (state : DeliveryState) : Plans :=
  (pendingByDomain state).foldl (planDomain toLowerCase options env)
    ⟨state, Table.empty, Table.empty⟩

/-! ## Delivery -/

/-- The outcomes of a plan, one for each transaction; no MX is contacted for a message that cannot
be composed. -/
def sendToMxHosts (env : MailerEnv) (plan : MxSessionPlan) : List RoutedOutcome :=
  match env.signed with
  | .uncomposable error => plan.transactions.map fun t => { key := t.key, error := some error }
  | _ =>
    deliverWithFailover (Text.join "," plan.domains) plan.verifiedTls env.bucketOf
      (plan.hosts.map fun host => (host, env.hostInputs plan host)) plan.transactions

/-- The state while outcomes are recorded, and the entries deferred so far. -/
structure Delivery where
  state : DeliveryState
  deferredKeys : List Text
  deferredWaitMs : Option ℚ

/-- The mode of the domain of an entry. -/
def mtaStsOf (plans : Plans) (state : DeliveryState) (key : Text) : Option DeliveryMtaSts :=
  ((state.get? key).bind DeliveryGroup.domain).bind fun domain =>
    (plans.mtaStsByDomain.get? domain).getD none

/-- Records one outcome; a deferred entry stays exactly as it was. -/
def recordDelivery (options : SendMailOptions) (env : MailerEnv) (plans : Plans)
    (d : Delivery) (outcome : RoutedOutcome) : Delivery :=
  match outcome.deferredMs with
  | some ms =>
    { d with
      deferredKeys := d.deferredKeys ++ [outcome.key]
      deferredWaitMs := some (d.deferredWaitMs.elim ms (min · ms)) }
  | none =>
    { d with
      state := recordOutcome toLowerCase d.state outcome options.messageId
        (recipientOrder toLowerCase options.to_ options.cc options.bcc)
        (mtaStsOf plans d.state outcome.key) (env.recordedAt outcome.key) }

/-- The outcomes of every plan, in plan order. -/
def allOutcomes (env : MailerEnv) (plans : Plans) : List RoutedOutcome :=
  plans.sessions.rows.flatMap fun (_, plan) => sendToMxHosts env plan

/-- Everything recorded on the state after planning. -/
def deliver (options : SendMailOptions) (env : MailerEnv) (plans : Plans) : Delivery :=
  (allOutcomes env plans).foldl (recordDelivery toLowerCase options env plans)
    ⟨plans.state, [], none⟩

/-- The domain whose DKIM key cannot sign; nothing is signed while nothing is pending. -/
def signingError (env : MailerEnv) (state : DeliveryState) : Option Text :=
  if pendingByDomain state = [] then none
  else match env.signed with
    | .signingFailed domain => some domain
    | _ => none

/-- Sends a row to its recipients, one attempt. -/
def sendMail (options : SendMailOptions) (env : MailerEnv) :
    Except SendMailError SendMailResult :=
  if (priorState toLowerCase options).rows = [] then .error .noRecipients
  else
    let state := startState toLowerCase options env
    match signingError env state with
    | some domain => .error (.dkimSigningFailed domain)
    | none =>
      let d := deliver toLowerCase options env (planSessions toLowerCase options env state)
      .ok ⟨options.messageId, d.state,
        if d.deferredKeys = [] then none else some ⟨d.deferredKeys, d.deferredWaitMs.getD 0⟩⟩

end SendMail

end BunMail.Emails
