import BunMail.Emails.QueueSend
import BunMail.Lib.Run

/-!
# The delivery state, step by step

Everything that happens to the delivery state of a row over its attempts is a sequence of steps:
recipients are dropped as suppressed, entries get their domain, pending entries are split, unsent
entries and outcomes are recorded, what is still pending at the end is flipped, and the state is
stored.  `attemptOps` are the steps of one attempt, and `sendMail` is their run.
-/

namespace BunMail.Emails

open Recipients Run

/-! ## Steps -/

/-- One rewrite of the delivery state.  The MTA-STS mode recorded with an outcome is looked up in
the state. -/
inductive StateOp
  | dropSuppressed (isSuppressed : Text → Bool) (now : Time)
  | withDomains
  | splitPerRecipient (returnPaths : ReturnPaths)
  | recordUnsent (key : Text) (unsent : Unsent) (mtaSts : Option DeliveryMtaSts) (now : Time)
  | recordOutcome (outcome : RoutedOutcome) (messageId : Text) (order : List Text)
      (mtaSts : DeliveryState → Option DeliveryMtaSts) (now : Time)
  | settle (deferred : List Text)
  | store

section Steps

variable (toLowerCase : Text → Text)

/-- The state after one step. -/
def applyOp (state : DeliveryState) : StateOp → DeliveryState
  | .dropSuppressed isSuppressed now => dropSuppressedRecipients isSuppressed now state
  | .withDomains => Emails.withDomains toLowerCase state
  | .splitPerRecipient returnPaths => Emails.splitPerRecipient toLowerCase state returnPaths
  | .recordUnsent key unsent mtaSts now => Emails.recordUnsent state key unsent mtaSts now
  | .recordOutcome outcome messageId order mtaSts now =>
    Emails.recordOutcome toLowerCase state outcome messageId order (mtaSts state) now
  | .settle deferred => finalStateOf state deferred
  | .store => jsonb state

/-- The recipients a step drops. -/
def droppedBy (state : DeliveryState) : StateOp → List Text
  | .dropSuppressed isSuppressed _ =>
    state.rows.flatMap fun (_, group) =>
      if group.status = .retry ∧ (group.recipients.filter fun r => !isSuppressed r) ≠ [] then
        group.recipients.filter isSuppressed
      else []
  | _ => []

/-- The condition on a step: re-filing assigns no key twice. -/
def CleanOp (state : DeliveryState) : StateOp → Prop
  | .withDomains => CleanPass (domainPieces toLowerCase) state
  | .splitPerRecipient returnPaths => CleanPass (recipientPieces toLowerCase returnPaths) state
  | _ => True

instance (state : DeliveryState) : ∀ op, Decidable (CleanOp toLowerCase state op)
  | .withDomains => inferInstanceAs (Decidable (CleanPass (domainPieces toLowerCase) state))
  | .splitPerRecipient returnPaths =>
    inferInstanceAs (Decidable (CleanPass (recipientPieces toLowerCase returnPaths) state))
  | .dropSuppressed .. | .recordUnsent .. | .recordOutcome .. | .settle .. | .store =>
    inferInstanceAs (Decidable True)

/-! ## The steps of an attempt -/

/-- The addresses of a row. -/
structure Envelope where
  from_ : Text
  to_ : Text
  cc : Option Text
  bcc : Option Text
  deriving DecidableEq

/-- The stored delivery state, or that of a first attempt while there is none. -/
structure Ledger where
  state : DeliveryState
  stored : Bool

/-- What varies between attempts; `settles` says that the attempt ends the row. -/
structure Attempt where
  returnPath : Option Text
  messageId : Text
  env : MailerEnv
  isSuppressed : Text → Bool
  droppedAt : Time
  settles : Bool

/-- The call of the mailer in an attempt. -/
def Attempt.options (e : Envelope) (a : Attempt) (existingState : Option DeliveryState) :
    SendMailOptions where
  from_ := e.from_
  to_ := e.to_
  cc := e.cc
  bcc := e.bcc
  messageId := a.messageId
  existingState := existingState
  returnPath := a.returnPath

/-- The split per recipient, with signed return paths on. -/
def splitOps (e : Envelope) (a : Attempt) : List StateOp :=
  match returnPathsOf toLowerCase (a.options e none) a.env with
  | none => []
  | some paths => [.splitPerRecipient paths]

/-- The steps up to the state the attempt works on. -/
def startOps (e : Envelope) (stored : Bool) (a : Attempt) : List StateOp :=
  (if stored then [.dropSuppressed a.isSuppressed a.droppedAt, .withDomains] else []) ++
    splitOps toLowerCase e a

/-- The entries that are not sent to. -/
def unsentOps (env : MailerEnv) (pending : List (Text × List Text)) : List StateOp :=
  pending.flatMap fun (domain, keys) =>
    match domainHosts toLowerCase env domain with
    | .error unsent => keys.map fun key =>
        .recordUnsent key unsent (mtaStsModeOf (env.policy domain)) (env.recordedAt key)
    | .ok _ => []

/-- The recording of an outcome, unless it was deferred. -/
def outcomeOp (options : SendMailOptions) (env : MailerEnv) (plans : Plans)
    (outcome : RoutedOutcome) : Option StateOp :=
  match outcome.deferredMs with
  | some _ => none
  | none =>
    some (.recordOutcome outcome options.messageId
      (recipientOrder toLowerCase options.to_ options.cc options.bcc)
      (mtaStsOf plans · outcome.key) (env.recordedAt outcome.key))

/-- The steps of the mailer on the state the attempt works on. -/
def recordOps (options : SendMailOptions) (env : MailerEnv) (state : DeliveryState) :
    List StateOp :=
  unsentOps toLowerCase env (pendingByDomain state) ++
    (allOutcomes env (planSessions toLowerCase options env state)).filterMap
      (outcomeOp toLowerCase options env (planSessions toLowerCase options env state))

/-- The keys an attempt defers. -/
def deferredOps (options : SendMailOptions) (env : MailerEnv) (state : DeliveryState) : List Text :=
  ((allOutcomes env (planSessions toLowerCase options env state)).filter (·.deferredMs.isSome)).map
    RoutedOutcome.key

/-- The steps of one attempt. -/
def attemptOps (e : Envelope) (l : Ledger) (a : Attempt) : List StateOp :=
  let start := run (applyOp toLowerCase) l.state (startOps toLowerCase e l.stored a)
  startOps toLowerCase e l.stored a ++ recordOps toLowerCase (a.options e none) a.env start ++
    (if a.settles then [.settle (deferredOps toLowerCase (a.options e none) a.env start)] else []) ++
    [.store]

/-- The ledger after an attempt whose outcome was saved. -/
def attemptStep (e : Envelope) (l : Ledger) (a : Attempt) : Ledger :=
  ⟨run (applyOp toLowerCase) l.state (attemptOps toLowerCase e l a), true⟩

/-- Every step of a sequence of attempts, one after the other. -/
def historyOps (e : Envelope) : Ledger → List Attempt → List StateOp
  | _, [] => []
  | l, a :: as =>
    attemptOps toLowerCase e l a ++ historyOps e (attemptStep toLowerCase e l a) as

/-! ## `sendMail` is the run of its steps -/

variable {toLowerCase} {options : SendMailOptions} {env : MailerEnv}

theorem state_planDomain {plans : Plans} {p : Text × List Text} :
    (planDomain toLowerCase options env plans p).state =
      run (applyOp toLowerCase) plans.state (unsentOps toLowerCase env [p]) := by
  obtain ⟨domain, keys⟩ := p
  unfold planDomain unsentOps
  rw [List.flatMap_singleton]
  dsimp only
  cases domainHosts toLowerCase env domain with
  | error unsent =>
    dsimp only
    rw [run, List.foldl_map]
    rfl
  | ok hosts => rfl

theorem state_planSessions (state : DeliveryState) :
    (planSessions toLowerCase options env state).state =
      run (applyOp toLowerCase) state (unsentOps toLowerCase env (pendingByDomain state)) := by
  unfold planSessions
  generalize pendingByDomain state = pending
  induction pending using List.reverseRecOn with
  | nil => rfl
  | append_singleton pending p ih =>
    rw [List.foldl_append, List.foldl_cons, List.foldl_nil, state_planDomain, ih]
    unfold unsentOps
    rw [List.flatMap_append, run_append]

theorem state_deliver (plans : Plans) :
    (deliver toLowerCase options env plans).state =
      run (applyOp toLowerCase) plans.state
        ((allOutcomes env plans).filterMap (outcomeOp toLowerCase options env plans)) := by
  unfold deliver
  generalize allOutcomes env plans = outcomes
  generalize hd : (⟨plans.state, [], none⟩ : Delivery) = d
  rw [show plans.state = d.state from hd ▸ rfl]
  clear hd
  induction outcomes generalizing d with
  | nil => rfl
  | cons o outcomes ih =>
    rw [List.foldl_cons, ih, List.filterMap_cons]
    unfold recordDelivery outcomeOp
    cases o.deferredMs <;> rfl

theorem deferredKeys_deliver (plans : Plans) :
    (deliver toLowerCase options env plans).deferredKeys =
      ((allOutcomes env plans).filter (·.deferredMs.isSome)).map RoutedOutcome.key := by
  unfold deliver
  generalize allOutcomes env plans = outcomes
  suffices ∀ d : Delivery, (outcomes.foldl (recordDelivery toLowerCase options env plans) d).deferredKeys
      = d.deferredKeys ++ (outcomes.filter (·.deferredMs.isSome)).map RoutedOutcome.key from
    this ⟨plans.state, [], none⟩
  induction outcomes with
  | nil => intro d; simp
  | cons o outcomes ih =>
    intro d
    rw [List.foldl_cons, ih]
    unfold recordDelivery
    cases ho : o.deferredMs <;> simp [ho]

/-- The call of the mailer in an attempt: on the stored state without its suppressed recipients,
or without a prior state. -/
def Ledger.existingState (l : Ledger) (a : Attempt) : Option DeliveryState :=
  if l.stored then some (dropSuppressedRecipients a.isSuppressed a.droppedAt l.state) else none

variable (toLowerCase) in
/-- While nothing is stored, the state is that of a first attempt. -/
def Ledger.Fresh (e : Envelope) (l : Ledger) : Prop :=
  l.stored = false → l.state = buildInitialState toLowerCase e.to_ e.cc e.bcc

variable {e : Envelope} {l : Ledger} {a : Attempt}

theorem startState_eq (hf : l.Fresh toLowerCase e) :
    startState toLowerCase (a.options e (l.existingState a)) a.env =
      run (applyOp toLowerCase) l.state (startOps toLowerCase e l.stored a) := by
  unfold startState startOps splitOps
  rw [run_append]
  have hprior : priorState toLowerCase (a.options e (l.existingState a)) =
      run (applyOp toLowerCase) l.state
        (if l.stored then [.dropSuppressed a.isSuppressed a.droppedAt, .withDomains] else []) := by
    unfold priorState Ledger.existingState
    cases hs : l.stored with
    | true => rfl
    | false => exact (hf hs).symm
  rw [← hprior]
  change (match returnPathsOf toLowerCase (a.options e none) a.env with
    | none => priorState toLowerCase (a.options e (l.existingState a))
    | some paths => splitPerRecipient toLowerCase
        (priorState toLowerCase (a.options e (l.existingState a))) paths) = _
  cases returnPathsOf toLowerCase (a.options e none) a.env <;> rfl

/-- **`sendMail`.** A call that returns leaves the state its steps lead to, and defers the keys its
outcomes say. -/
theorem sendMail_ok (hf : l.Fresh toLowerCase e) {r : SendMailResult}
    (h : sendMail toLowerCase (a.options e (l.existingState a)) a.env = .ok r) :
    r.deliveryState = run (applyOp toLowerCase)
        (run (applyOp toLowerCase) l.state (startOps toLowerCase e l.stored a))
        (recordOps toLowerCase (a.options e none) a.env
          (run (applyOp toLowerCase) l.state (startOps toLowerCase e l.stored a))) ∧
      (r.deferred.map Deferred.keys).getD [] = deferredOps toLowerCase (a.options e none) a.env
        (run (applyOp toLowerCase) l.state (startOps toLowerCase e l.stored a)) := by
  unfold sendMail at h
  split_ifs at h
  dsimp only at h
  rw [startState_eq hf] at h
  generalize run (applyOp toLowerCase) l.state (startOps toLowerCase e l.stored a) = state at h ⊢
  cases hs : signingError a.env state with
  | some domain => rw [hs] at h; cases h
  | none =>
    rw [hs] at h
    cases h
    refine ⟨?_, ?_⟩
    · unfold recordOps
      rw [run_append, ← state_planSessions, ← state_deliver]
      rfl
    · unfold deferredOps
      rw [← deferredKeys_deliver]
      dsimp only
      split_ifs with hk
      · exact hk.symm
      · rfl

end Steps

end BunMail.Emails
