import BunMail.Domains.SpfReference

/-!
# SPF evaluation is exact

Every part of the evaluator is exact for its reading, and `checkDomain` for the derivations of its domain: it
ends with the one there is, or with a permanent error where every derivation passes a limit.  An include or a
redirect is counted before its target is evaluated, so that the turns outlast the count.
-/

namespace BunMail.Spf

open Text Metered

/-! ## The meter -/

def spfMeter : Meter Evaluation Charge where
  spent ev
    | .term => ev.lookups
    | .void => ev.voids
  limit
    | .term => MAX_DNS_TERMS
    | .void => MAX_VOID_LOOKUPS

/-- How a fault is seen: running out of turns is nothing the rules know. -/
def Fault.look : Fault → Option ErrorResult
  | .spf e => some e.result
  | .endless => none

/-- A program that is exact from every state within the limits. -/
def Reads {α : Type} (p : Eval α) (part : Part α) : Prop :=
  ∀ ev, spfMeter.Within ev → Program.Exact spfMeter Fault.look .permerror p part.Shows ev

variable {α β : Type} {p : Eval α} {f : α → Eval β} {part : Part α} {g : α → Part β}

theorem reads_pure (a : α) : Reads (pure a) (.done a) := fun _ hev => Program.exact_done a hev

theorem reads_throw (result : ErrorResult) (message : Text) : Reads (throwSpf result message : Eval α) (.fail result) :=
  fun _ hev => Program.exact_fail hev rfl

theorem reads_bind (hp : Reads p part) (hf : ∀ a, Reads (f a) (g a)) : Reads (p >>= f) (part.andThen g) := fun ev hev =>
  Program.exact_read (hp ev hev) fun a ev' _ hev' => hf a ev' hev'

/-- A part whose value is known. -/
theorem reads_after {a : α} {part' : Part β} (hp : Reads p (.done a)) (hf : Reads (f a) part') : Reads (p >>= f) part' := by
  intro ev hev
  refine Program.exact_read (g := fun _ => part') (hp ev hev) fun a' ev' ha hev' => ?_
  cases ha
  exact hf ev' hev'

theorem reads_query (lookup : Lookup α) : Reads (query lookup) (.done (answerOf lookup)) := fun _ hev =>
  Program.exact_free hev rfl fun i => by cases i <;> rfl

theorem reads_countLookup (what : Text) : Reads (countLookup what) (.charge .term) := fun ev hev =>
  Program.exact_charge _ { ev with lookups := ev.lookups + 1 } hev rfl (fun i => by cases i <;> rfl) rfl

theorem reads_countVoid (name : Text) : Reads (countVoid name) (.charge .void) := fun ev hev =>
  Program.exact_charge _ { ev with voids := ev.voids + 1 } hev rfl (fun i => by cases i <;> rfl) rfl

theorem reads_lift (x : Except SpfError α) : Reads (lift x) (readLift x) := by
  cases x with
  | ok a => exact reads_pure a
  | error e => exact reads_throw e.result e.message

/-! ## Lookups -/

theorem reads_recordsOf (answer : Answer α) (name : Text) : Reads (recordsOf answer name) (readRecords answer) := by
  cases answer with
  | ok records => exact reads_pure records
  | error code => exact reads_throw _ _
  | void => exact reads_bind (reads_countVoid name) fun _ => reads_pure []

variable (c : Context)

theorem reads_addressQuery (name : Text) : Reads (addressQuery c name) (.done (addressAnswer c name)) := reads_query _

theorem reads_filterValid (names : List Text) : Reads (filterValid c names)
    (.done (names.filter fun name => (addressAnswer c name).hasClient c)) := by
  induction names with
  | nil => exact reads_pure []
  | cons name names ih =>
    rw [List.filter_cons]
    exact reads_bind (reads_addressQuery c name) fun answer => reads_bind ih fun rest => reads_pure _

theorem reads_namesOf (answer : Answer Text) : Reads (namesOf c answer) (readPtr c answer) := by
  cases answer with
  | error code => exact reads_pure []
  | void => exact reads_bind (reads_countVoid _) fun _ => reads_pure []
  | ok records => exact reads_filterValid c _

theorem reads_validatedNames : Reads (validatedNames c) (readNames c) := reads_bind (reads_query _) (reads_namesOf c)

theorem Reading.andThen_assoc (part : Part α) (g : α → Part β) {γ : Type} (h : β → Part γ) :
    (part.andThen g).andThen h = part.andThen fun a => (g a).andThen h := by
  obtain ⟨t, v⟩ := part
  cases v with
  | error e => rfl
  | ok a =>
    unfold Reading.andThen
    dsimp only
    cases (g a).2 <;> simp

theorem reads_ptrMacroValue (domain : Text) : Reads (ptrMacroValue c domain)
    ((Reading.charge .term).andThen fun _ => (readNames c).andThen fun names =>
      .done (choosePtrName names (canonicalName c domain))) :=
  reads_bind (reads_countLookup _) fun _ => reads_bind (reads_validatedNames c) fun _ => reads_pure _

theorem reads_ptrNameOf (tokens : List MacroToken) (domain : Text) :
    Reads (ptrNameOf c tokens domain) (readPtrName c tokens domain) := by
  unfold ptrNameOf readPtrName
  split_ifs
  · have hread := reads_bind (reads_ptrMacroValue c domain) fun name => reads_pure (some name)
    rw [Reading.andThen_assoc] at hread
    simp only [Reading.andThen_assoc] at hread
    exact hread
  · exact reads_pure none

theorem reads_expandTarget (tokens : List MacroToken) (domain : Text) :
    Reads (expandTarget c tokens domain) (readTarget c tokens domain) :=
  reads_bind (reads_ptrNameOf c tokens domain) fun _ => reads_bind (reads_lift _) fun _ => reads_pure _

theorem reads_mechanismTarget (domainSpec : Option (List MacroToken)) (domain : Text) :
    Reads (mechanismTarget c domainSpec domain) (readMechanismTarget c domainSpec domain) := by
  cases domainSpec with
  | none => exact reads_pure _
  | some tokens => exact reads_expandTarget c tokens domain

/-! ## Mechanisms -/

theorem reads_anyHost (length : ℕ) (hosts : List Text) : Reads (anyHost c length hosts) (readHosts c length hosts) := by
  induction hosts with
  | nil => exact reads_pure false
  | cons host hosts ih =>
    refine reads_after (reads_addressQuery c host) ?_
    unfold readHosts
    cases addressAnswer c host with
    | error code => exact reads_throw _ _
    | void => exact ih
    | ok addresses =>
      dsimp only
      split_ifs
      · exact reads_pure true
      · exact ih

theorem reads_matchesMx (target : Text) (length : ℕ) : Reads (matchesMx c target length)
    ((readRecords (answerOf (c.resolver.resolveMx target))).andThen fun records =>
      if MAX_NAMES_PER_ANSWER < (mxHosts records).length then .fail .permerror
      else readHosts c length (mxHosts records)) := by
  refine reads_after (reads_query _) (reads_bind (reads_recordsOf _ target) fun records => ?_)
  split_ifs
  · exact reads_throw _ _
  · exact reads_anyHost c length _

/-- A counted term with a target. -/
theorem reads_counted {what : Text} {target : Eval (Option Text)} {part : Part (Option Text)} {found : Text → Eval Bool}
    {read : Text → Part Bool} {f : Option Text → Eval Bool} (htarget : Reads target part)
    (hfound : ∀ name, Reads (found name) (read name)) (hnone : f none = pure false) (hsome : ∀ name, f (some name) = found name) :
    Reads (do countLookup what; let target ← target; f target) (readCounted part read) := by
  refine reads_bind (reads_countLookup what) fun _ => reads_bind htarget fun name => ?_
  cases name with
  | none =>
    rw [hnone]
    exact reads_pure false
  | some name =>
    rw [hsome]
    exact hfound name

/-- The mechanisms but `include`. -/
theorem reads_matchesKind (check : Text → Eval SpfCheckResult) (term domain : Text) {kind : MechanismKind}
    {part : Part Bool} (h : readKind c domain kind = some part) : Reads (matchesKind c check term domain kind) part := by
  cases kind with
  | all | ip4 network length | ip6 network length =>
    cases h
    exact reads_pure _
  | a domainSpec cidr4 cidr6 =>
    cases h
    refine reads_counted (reads_mechanismTarget c domainSpec domain) (fun target => ?_) rfl fun _ => rfl
    exact reads_after (reads_addressQuery c target) (reads_bind (reads_recordsOf _ target) fun _ => reads_pure _)
  | mx domainSpec cidr4 cidr6 =>
    cases h
    exact reads_counted (reads_mechanismTarget c domainSpec domain) (fun target => reads_matchesMx c target _) rfl
      fun _ => rfl
  | ptr domainSpec =>
    cases h
    refine reads_counted (reads_mechanismTarget c domainSpec domain) (fun target => ?_) rfl fun _ => rfl
    exact reads_bind (reads_validatedNames c) fun _ => reads_pure _
  | exists_ domainSpec =>
    cases h
    refine reads_counted (reads_expandTarget c domainSpec domain) (fun target => ?_) rfl fun _ => rfl
    exact reads_after (reads_query _) (reads_bind (reads_recordsOf _ target) fun _ => reads_pure _)
  | include_ domainSpec => cases h

/-! ## Includes and redirects -/

/-- How the end of an evaluation is seen. -/
def seesResult : Except Fault SpfCheckResult → Option SpfResult
  | .ok r => some r.result
  | .error fault => fault.look.map ErrorResult.result

variable {c} {check : Text → Eval SpfCheckResult} {least : ℕ} {ev : Evaluation} {domain target : Text}

/-- An evaluation that is exact from every state with so many terms counted. -/
def Evaluates (c : Context) (check : Text → Eval SpfCheckResult) (least : ℕ) : Prop :=
  ∀ domain ev, spfMeter.Within ev → least ≤ ev.lookups →
    spfMeter.Exact seesResult .permerror (Host c domain) ev (check domain ev)

/-- What follows an evaluation and looks nothing up. -/
theorem bind_lift {α : Type} (p : Eval SpfCheckResult) (f : SpfCheckResult → Except SpfError α) (ev : Evaluation) :
    (do let inner ← p; lift (f inner) : Eval α) ev =
      ((p ev).1.bind fun inner => (f inner).mapError Fault.spf, (p ev).2) := by
  obtain ⟨out, ev', hout⟩ : ∃ out ev', p ev = (out, ev') := ⟨_, _, rfl⟩
  cases out with
  | error fault =>
    have hrun := Program.andThen_error (f := fun inner => lift (f inner)) hout
    rw [hout]
    exact hrun
  | ok inner =>
    have hrun := Program.andThen_ok (f := fun inner => lift (f inner)) hout
    refine hrun.trans ?_
    rw [hout]
    show lift (f inner) ev' = ((f inner).mapError Fault.spf, ev')
    cases f inner <;> rfl

theorem sees_included (term : Text) (out : Except Fault SpfCheckResult) (v : SpfResult) (h : seesResult out = some v) :
    Program.sees Fault.look (out.bind fun inner => (included term inner).mapError Fault.spf) = some v.included := by
  cases out with
  | error fault =>
    obtain ⟨e, he, rfl⟩ := Option.map_eq_some_iff.mp h
    have hincluded : e.result.included = .error e := by cases e <;> rfl
    rw [hincluded]
    exact Program.sees_error he
  | ok inner =>
    cases h
    obtain ⟨result, reason⟩ := inner
    cases result <;> rfl

theorem exact_included (hcheck : Evaluates c check least) (hev : spfMeter.Within ev) (hleast : least ≤ ev.lookups)
    (term : Text) : Program.Exact spfMeter Fault.look .permerror
      (do let inner ← check target; lift (included term inner))
      (fun t v => ∃ w, Host c target t w ∧ v = w.included) ev := by
  unfold Program.Exact
  rw [bind_lift]
  exact Meter.Exact.map (hcheck target ev hev hleast) (sees_included term)

/-- A charge for a term makes room for one more turn. -/
theorem lookups_after {ev' : Evaluation} {t : List Charge} (h : spfMeter.After ev ev' t) :
    ev'.lookups = ev.lookups + t.count .term := h .term

/-- What an include makes of its target. -/
def IncludeResult (c : Context) (target : Option Text) (t : List Charge) (v : Except ErrorResult Bool) : Prop :=
  target.elim ((Reading.fail .permerror).Shows t v) fun target => ∃ w, Host c target t w ∧ v = w.included

theorem match_include {tokens : List MacroToken} {t : List Charge} {v : Except ErrorResult Bool} :
    Reading.Chain .error (Reading.charge .term).Shows
      (fun _ => Reading.Chain .error (readTarget c tokens domain).Shows (IncludeResult c)) t v ↔
    Match c domain (.include_ tokens) t v := by
  rw [Reading.chain_charge]
  simp only [Reading.chain_reading]
  constructor
  · rintro ⟨t, ⟨e, he, rfl, rfl⟩ | ⟨target, t', htarget, hresult, rfl⟩, rfl⟩
    · exact .includeFails he
    · cases target with
      | none =>
        obtain ⟨rfl, rfl⟩ := hresult
        have hinvalid := Match.includeInvalid htarget
        rwa [← List.append_nil (readTarget c tokens domain).1] at hinvalid
      | some target =>
        obtain ⟨w, hhost, rfl⟩ := hresult
        exact .included htarget hhost
  · intro h
    cases h with
    | plain h => cases h
    | includeFails he => exact ⟨_, .inl ⟨_, he, rfl, rfl⟩, rfl⟩
    | includeInvalid htarget => exact ⟨_, .inr ⟨none, [], htarget, ⟨rfl, rfl⟩, (List.append_nil _).symm⟩, rfl⟩
    | included htarget hhost => exact ⟨_, .inr ⟨some _, _, htarget, ⟨_, hhost, rfl⟩, rfl⟩, rfl⟩

/-- Behind a counted term there is room for one more turn. -/
theorem room_after {ev' ev'' : Evaluation} {t' : List Charge} (hleast : least ≤ ev.lookups + 1)
    (h : spfMeter.After ev ev' [Charge.term]) (h' : spfMeter.After ev' ev'' t') :
    least ≤ ev''.lookups := by
  have hone := lookups_after h
  have hmore := lookups_after h'
  have hcount : [Charge.term].count .term = 1 := rfl
  omega

theorem exact_include (hcheck : Evaluates c check least) (hev : spfMeter.Within ev) (hleast : least ≤ ev.lookups + 1)
    (term domain : Text) (tokens : List MacroToken) : Program.Exact spfMeter Fault.look .permerror
      (matchesKind c check term domain (.include_ tokens)) (Match c domain (.include_ tokens)) ev := by
  refine Meter.Exact.congr (Program.exact_bind (reads_countLookup term ev hev) fun _ t ev' ht hafter hev' =>
    Program.exact_bind (reads_expandTarget c tokens domain ev' hev')
      fun target t' ev'' _ hafter' hev'' => ?_) fun t v => match_include
  obtain ⟨rfl, -⟩ := ht
  have hroom : least ≤ ev''.lookups := room_after hleast hafter hafter'
  cases target with
  | none => exact reads_throw _ _ ev'' hev''
  | some target => exact exact_included hcheck hev'' hroom term

theorem exact_matchesKind (hcheck : Evaluates c check least) (hev : spfMeter.Within ev)
    (hleast : least ≤ ev.lookups + 1) (term domain : Text) (kind : MechanismKind) :
    Program.Exact spfMeter Fault.look .permerror (matchesKind c check term domain kind) (Match c domain kind) ev := by
  cases hread : readKind c domain kind with
  | none =>
    cases kind with
    | include_ tokens => exact exact_include hcheck hev hleast term domain tokens
    | _ => cases hread
  | some part =>
    refine Meter.Exact.congr (reads_matchesKind c check term domain hread ev hev) fun t v => ?_
    constructor
    · rintro ⟨rfl, rfl⟩
      exact .plain hread
    · intro h
      cases h with
      | plain h =>
        cases hread.symm.trans h
        exact ⟨rfl, rfl⟩
      | _ => cases hread

/-- An error in front of an evaluation's result. -/
theorem sees_error_result (fault : Fault) (e : ErrorResult) (h : fault.look = some e) :
    seesResult (.error fault) = some e.result := Option.map_eq_some_iff.mpr ⟨e, h, rfl⟩

theorem exact_pure {result : SpfCheckResult} (hev : spfMeter.Within ev) : spfMeter.Exact seesResult .permerror
    (fun t v => t = [] ∧ v = result.result) ev ((pure result : Eval SpfCheckResult) ev) :=
  .inl ⟨[], result.result, Meter.After.refl _ _, hev, rfl, ⟨rfl, rfl⟩, fun _ _ h => h⟩

theorem bind_pure (p : Eval SpfCheckResult) (f : SpfCheckResult → SpfCheckResult) (ev : Evaluation) :
    (do let inner ← p; pure (f inner) : Eval SpfCheckResult) ev = ((p ev).1.map f, (p ev).2) := by
  refine (bind_lift p (fun inner => .ok (f inner)) ev).trans ?_
  cases (p ev).1 <;> rfl

theorem sees_redirected (target : Text) (out : Except Fault SpfCheckResult) (v : SpfResult) (h : seesResult out = some v) :
    seesResult (out.map (redirected target)) = some v.redirected := by
  cases out with
  | error fault =>
    obtain ⟨e, he, rfl⟩ := Option.map_eq_some_iff.mp h
    have hsame : e.result.redirected = e.result := by cases e <;> rfl
    rw [hsame]
    exact sees_error_result fault e he
  | ok inner =>
    cases h
    obtain ⟨result, reason⟩ := inner
    cases result <;> rfl

/-- What a redirect makes of its target. -/
def RedirectResult (c : Context) (target : Option Text) (t : List Charge) (v : SpfResult) : Prop :=
  target.elim (t = [] ∧ v = .permerror) fun target => ∃ w, Host c target t w ∧ v = w.redirected

theorem directives_redirect {tokens : List MacroToken} {t : List Charge} {v : SpfResult} :
    Reading.Chain ErrorResult.result (Reading.charge .term).Shows
      (fun _ => Reading.Chain ErrorResult.result (readTarget c tokens domain).Shows (RedirectResult c)) t v ↔
    Directives c domain (some tokens) [] t v := by
  rw [Reading.chain_charge]
  simp only [Reading.chain_reading]
  constructor
  · rintro ⟨t, ⟨e, he, rfl, rfl⟩ | ⟨target, t', htarget, hresult, rfl⟩, rfl⟩
    · exact .redirectFails he
    · cases target with
      | none =>
        obtain ⟨rfl, rfl⟩ := hresult
        have hinvalid := Directives.redirectInvalid htarget
        rwa [← List.append_nil (readTarget c tokens domain).1] at hinvalid
      | some target =>
        obtain ⟨w, hhost, rfl⟩ := hresult
        exact .redirect htarget hhost
  · intro h
    cases h with
    | redirectFails he => exact ⟨_, .inl ⟨_, he, rfl, rfl⟩, rfl⟩
    | redirectInvalid htarget => exact ⟨_, .inr ⟨none, [], htarget, ⟨rfl, rfl⟩, (List.append_nil _).symm⟩, rfl⟩
    | redirect htarget hhost => exact ⟨_, .inr ⟨some _, _, htarget, ⟨_, hhost, rfl⟩, rfl⟩, rfl⟩

/-! ## Records -/

theorem exact_unmatched (hcheck : Evaluates c check least) (hev : spfMeter.Within ev)
    (hleast : least ≤ ev.lookups + 1) (domain : Text) (redirect : Option (List MacroToken)) :
    spfMeter.Exact seesResult .permerror (Directives c domain redirect []) ev (unmatched c check domain redirect ev) := by
  cases redirect with
  | none =>
    refine Meter.Exact.congr (exact_pure hev) fun t v => ?_
    constructor
    · rintro ⟨rfl, rfl⟩
      exact .neutral
    · intro h
      cases h
      exact ⟨rfl, rfl⟩
  | some tokens =>
    refine Meter.Exact.congr (Program.exact_bind_view sees_error_result (reads_countLookup _ ev hev)
      fun _ t ev' ht hafter hev' => Program.exact_bind_view sees_error_result (reads_expandTarget c tokens domain ev' hev')
        fun target t' ev'' _ hafter' hev'' => ?_) fun t v => directives_redirect
    obtain ⟨rfl, -⟩ := ht
    have hroom : least ≤ ev''.lookups := room_after hleast hafter hafter'
    cases target with
    | none => exact exact_pure hev''
    | some target =>
      have hinner := Meter.Exact.map (hcheck target ev'' hev'' hroom) (sees_redirected target)
      rw [← bind_pure] at hinner
      exact hinner

/-- What follows a mechanism. -/
def DirectiveResult (c : Context) (domain : Text) (redirect : Option (List MacroToken)) (mechanism : SpfMechanism)
    (mechanisms : List SpfMechanism) (matched : Bool) (t : List Charge) (v : SpfResult) : Prop :=
  if matched then t = [] ∧ v = mechanism.qualifier.result else Directives c domain redirect mechanisms t v

theorem directives_cons {redirect : Option (List MacroToken)} {mechanism : SpfMechanism} {mechanisms : List SpfMechanism}
    {t : List Charge} {v : SpfResult} :
    Reading.Chain ErrorResult.result (Match c domain mechanism.kind)
      (DirectiveResult c domain redirect mechanism mechanisms) t v ↔
    Directives c domain redirect (mechanism :: mechanisms) t v := by
  constructor
  · rintro (⟨e, he, rfl⟩ | ⟨t₁, matched, t₂, hmatch, hresult, rfl⟩)
    · exact .fails he
    · cases matched with
      | true =>
        obtain ⟨rfl, rfl⟩ := hresult
        rw [List.append_nil]
        exact .decides hmatch
      | false => exact .passes hmatch hresult
  · intro h
    cases h with
    | fails he => exact .inl ⟨_, he, rfl⟩
    | decides hmatch => exact .inr ⟨_, true, [], hmatch, ⟨rfl, rfl⟩, (List.append_nil _).symm⟩
    | passes hmatch hrest => exact .inr ⟨_, false, _, hmatch, hrest, rfl⟩

theorem exact_directives (hcheck : Evaluates c check least) (domain : Text) (redirect : Option (List MacroToken))
    (mechanisms : List SpfMechanism) (hev : spfMeter.Within ev) (hleast : least ≤ ev.lookups + 1) :
    spfMeter.Exact seesResult .permerror (Directives c domain redirect mechanisms) ev
      (directives c check domain redirect mechanisms ev) := by
  induction mechanisms generalizing ev with
  | nil => exact exact_unmatched hcheck hev hleast domain redirect
  | cons mechanism mechanisms ih =>
    refine Meter.Exact.congr (Program.exact_bind_view sees_error_result
      (exact_matchesKind hcheck hev hleast mechanism.term domain mechanism.kind)
      fun matched t ev' _ hafter hev' => ?_) fun t v => directives_cons
    cases matched with
    | true => exact exact_pure hev'
    | false =>
      have hmore := lookups_after hafter
      exact ih hev' (by omega)

theorem host_failed {code : Text} {t : List Charge} {v : SpfResult}
    (h : answerOf (c.resolver.resolveTxt domain) = .error code) : (t = [] ∧ v = .temperror) ↔ Host c domain t v := by
  have hnone : spfRecords (answerOf (c.resolver.resolveTxt domain)) = [] := by
    rw [h]
    rfl
  constructor
  · rintro ⟨rfl, rfl⟩
    exact .failed h
  · intro hhost
    cases hhost with
    | failed => exact ⟨rfl, rfl⟩
    | none hne => exact absurd h (hne code)
    | several hlong =>
      rw [hnone] at hlong
      cases hlong
    | malformed htext | record htext =>
      rw [hnone] at htext
      cases htext

theorem host_none {t : List Charge} {v : SpfResult} (hok : ∀ code, answerOf (c.resolver.resolveTxt domain) ≠ .error code)
    (h : spfRecords (answerOf (c.resolver.resolveTxt domain)) = []) :
    (t = [] ∧ v = .none) ↔ Host c domain t v := by
  constructor
  · rintro ⟨rfl, rfl⟩
    exact .none hok h
  · intro hhost
    cases hhost with
    | failed hfail => exact absurd hfail (hok _)
    | none => exact ⟨rfl, rfl⟩
    | several hlong =>
      rw [h] at hlong
      cases hlong
    | malformed htext | record htext =>
      rw [h] at htext
      cases htext

theorem host_several {t : List Charge} {v : SpfResult} (hok : ∀ code, answerOf (c.resolver.resolveTxt domain) ≠ .error code)
    (h : 1 < (spfRecords (answerOf (c.resolver.resolveTxt domain))).length) :
    (t = [] ∧ v = .permerror) ↔ Host c domain t v := by
  constructor
  · rintro ⟨rfl, rfl⟩
    exact .several h
  · intro hhost
    cases hhost with
    | failed hfail => exact absurd hfail (hok _)
    | none _ hnone =>
      rw [hnone] at h
      cases h
    | several => exact ⟨rfl, rfl⟩
    | malformed htext | record htext =>
      rw [htext, List.length_singleton] at h
      exact absurd h (lt_irrefl 1)

theorem host_record {text : Text} {t : List Charge} {v : SpfResult}
    (hok : ∀ code, answerOf (c.resolver.resolveTxt domain) ≠ .error code)
    (h : spfRecords (answerOf (c.resolver.resolveTxt domain)) = [text]) :
    Reading.Chain ErrorResult.result (readLift (parseSpfRecord text)).Shows
      (fun record => Directives c domain record.redirect record.mechanisms) t v ↔ Host c domain t v := by
  have hsame : ∀ text', spfRecords (answerOf (c.resolver.resolveTxt domain)) = [text'] → text' = text := fun text' htext =>
    List.singleton_inj.mp (htext.symm.trans h)
  rw [Reading.chain_reading]
  constructor
  · cases hparse : parseSpfRecord text with
    | error e =>
      rintro (⟨e', he, rfl, rfl⟩ | ⟨record, t', hrecord, -⟩)
      · cases he
        exact .malformed h hparse
      · cases hrecord
    | ok record =>
      rintro (⟨e', he, -⟩ | ⟨record', t', hrecord, hrest, rfl⟩)
      · cases he
      · cases hrecord
        exact .record h hparse hrest
  · intro hhost
    cases hhost with
    | failed hfail => exact absurd hfail (hok _)
    | none _ hnone =>
      rw [hnone] at h
      cases h
    | several hlong =>
      rw [h, List.length_singleton] at hlong
      exact absurd hlong (lt_irrefl 1)
    | malformed htext hparse =>
      cases hsame _ htext
      rw [hparse]
      exact .inl ⟨_, rfl, rfl, rfl⟩
    | record htext hparse hrest =>
      cases hsame _ htext
      rw [hparse]
      exact .inr ⟨_, _, rfl, hrest, rfl⟩

theorem exact_evaluateRecords (hcheck : Evaluates c check least) (hev : spfMeter.Within ev)
    (hleast : least ≤ ev.lookups + 1) (hok : ∀ code, answerOf (c.resolver.resolveTxt domain) ≠ .error code) :
    spfMeter.Exact seesResult .permerror (Host c domain) ev
      (evaluateRecords c check domain (spfRecords (answerOf (c.resolver.resolveTxt domain))) ev) := by
  cases hrecords : spfRecords (answerOf (c.resolver.resolveTxt domain)) with
  | nil => exact Meter.Exact.congr (exact_pure hev) fun t v => host_none hok hrecords
  | cons text more =>
    cases more with
    | nil =>
      refine Meter.Exact.congr (Program.exact_bind_view sees_error_result (reads_lift (parseSpfRecord text) ev hev)
        fun record t ev' _ hafter hev' => ?_) fun t v => host_record hok hrecords
      have hmore := lookups_after hafter
      exact exact_directives hcheck domain record.redirect record.mechanisms hev' (by omega)
    | cons text' more =>
      refine Meter.Exact.congr (exact_pure hev) fun t v => host_several hok ?_
      rw [hrecords]
      exact Nat.le_add_left 2 more.length

/-- What `checkDomain` does with the TXT query and its answer. -/
theorem exact_evaluateDomain (hcheck : Evaluates c check least) (hev : spfMeter.Within ev)
    (hleast : least ≤ ev.lookups + 1) (domain : Text) :
    spfMeter.Exact seesResult .permerror (Host c domain) ev (evaluateDomain c check domain ev) := by
  refine Meter.Exact.congr (Program.exact_bind_view sees_error_result (reads_query _ ev hev)
    fun answer t ev' hanswer hafter hev' => ?_) fun t v => Reading.chain_done (S := fun _ => Host c domain)
  have hmore := lookups_after hafter
  obtain ⟨-, hanswer⟩ := hanswer
  cases hanswer
  have hrecords : (∀ code, answerOf (c.resolver.resolveTxt domain) ≠ .error code) →
      spfMeter.Exact seesResult .permerror (Host c domain) ev'
        (evaluateRecords c check domain (spfRecords (answerOf (c.resolver.resolveTxt domain))) ev') :=
    exact_evaluateRecords hcheck hev' (by omega)
  cases hanswer : answerOf (c.resolver.resolveTxt domain) with
  | error code => exact Meter.Exact.congr (exact_pure hev') fun t v => host_failed hanswer
  | ok records =>
    rw [hanswer] at hrecords
    exact hrecords fun code hcode => by cases hcode
  | void =>
    rw [hanswer] at hrecords
    exact hrecords fun code hcode => by cases hcode

theorem catchSpf_spec (p : Eval SpfCheckResult) (ev : Evaluation) :
    seesResult (catchSpf p ev).1 = seesResult (p ev).1 ∧ (catchSpf p ev).2 = (p ev).2 := by
  unfold catchSpf
  obtain ⟨out, ev', hout⟩ : ∃ out ev', p ev = (out, ev') := ⟨_, _, rfl⟩
  rw [hout]
  cases out with
  | ok result => exact ⟨rfl, rfl⟩
  | error fault => cases fault <;> exact ⟨rfl, rfl⟩

/-- **A domain's evaluation is exact**, as long as its turns and the terms counted make eleven. -/
theorem exact_checkDomain (turns : ℕ) : Evaluates c (checkDomain c turns) (MAX_DNS_TERMS + 1 - turns) := by
  induction turns with
  | zero =>
    intro domain ev hev hleast
    have hterms : ev.lookups ≤ MAX_DNS_TERMS := hev .term
    omega
  | succ turns ih =>
    intro domain ev hev hleast
    have hbody := exact_evaluateDomain ih hev (by omega) domain
    obtain ⟨hsame, hstate⟩ := catchSpf_spec (evaluateDomain c (checkDomain c turns) domain) ev
    unfold Meter.Exact at hbody ⊢
    rw [checkDomain, hsame, hstate]
    exact hbody

/-! ## The check -/

/-- The limits of section 4.6.4. -/
def InLimits (t : List Charge) : Prop := t.count .term ≤ MAX_DNS_TERMS ∧ t.count .void ≤ MAX_VOID_LOOKUPS

/-- The result of a derivation within the limits, and a permanent error where there is none. -/
def Judged (derives : List Charge → SpfResult → Prop) (result : SpfResult) : Prop :=
  (∃ t, derives t result ∧ InLimits t) ∨ result = .permerror ∧ ∀ t r, derives t r → ¬InLimits t

theorem breaks_start (t : List Charge) : spfMeter.Breaks .start t ↔ ¬InLimits t := by
  have hstart : ∀ i, spfMeter.spent .start i = 0 := fun i => by cases i <;> rfl
  unfold Meter.Breaks InLimits
  rw [Decidable.not_and_iff_not_or_not, Nat.not_le, Nat.not_le]
  constructor
  · rintro ⟨i, hi⟩
    rw [hstart, Nat.zero_add] at hi
    cases i with
    | term => exact .inl hi
    | void => exact .inr hi
  · rintro (h | h)
    · exact ⟨.term, by rw [hstart, Nat.zero_add]; exact h⟩
    · exact ⟨.void, by rw [hstart, Nat.zero_add]; exact h⟩

/-- A domain's evaluation throws no `SpfError`. -/
theorem checkDomain_ok (turns : ℕ) (domain : Text) (ev : Evaluation) {r : SpfResult}
    (h : seesResult (checkDomain c turns domain ev).1 = some r) :
    ∃ result, (checkDomain c turns domain ev).1 = .ok result ∧ result.result = r := by
  cases turns with
  | zero => cases h
  | succ turns =>
    unfold checkDomain catchSpf at h ⊢
    generalize evaluateDomain c (checkDomain c turns) domain ev = out at h ⊢
    obtain ⟨out, ev'⟩ := out
    cases out with
    | ok result =>
      cases h
      exact ⟨result, rfl, rfl⟩
    | error fault =>
      cases fault with
      | endless => cases h
      | spf e =>
        cases h
        exact ⟨_, rfl, rfl⟩

/-- Section 4.3 before the derivations: the results for an address or a domain that is none. -/
def CheckHost (resolver : SpfDnsResolver) (toLowerCase : Text → Text) (input : SpfCheckInput) (result : SpfResult) :
    Prop :=
  match clientAddress input.ip with
  | none => result = .temperror
  | some ip =>
    if isValidDomainName (dropDot input.domain) then
      Judged (Host (contextOf resolver toLowerCase ip input) (dropDot input.domain)) result
    else result = .none

/-- **`checkHost` is `check_host()` with its limits**: given eleven turns or more it ends, with the result of the
derivation of the domain within the limits, and with a permanent error where there is none. -/
theorem checkHost_exact (resolver : SpfDnsResolver) (toLowerCase : Text → Text) (turns : ℕ) (input : SpfCheckInput) :
    ∃ result, (checkHost resolver toLowerCase (MAX_DNS_TERMS + 1 + turns) input).1 = .ok result ∧
      ∀ r, result.result = r ↔ CheckHost resolver toLowerCase input r := by
  unfold checkHost CheckHost
  cases hip : clientAddress input.ip with
  | none => exact ⟨_, rfl, fun r => eq_comm⟩
  | some ip =>
    dsimp only
    cases hdomain : isValidDomainName (dropDot input.domain) with
    | false => exact ⟨_, rfl, fun r => eq_comm⟩
    | true =>
      simp only [if_true]
      generalize contextOf resolver toLowerCase ip input = c
      have hstart : spfMeter.Within .start := fun i => by cases i <;> exact Nat.zero_le _
      have hexact := exact_checkDomain (c := c) (MAX_DNS_TERMS + 1 + turns) (dropDot input.domain) .start hstart (by omega)
      have hiff : ∀ r, seesResult (checkDomain c (MAX_DNS_TERMS + 1 + turns) (dropDot input.domain) .start).1 = some r ↔
          Judged (Host c (dropDot input.domain)) r := by
        intro r
        rw [hexact.iff]
        simp only [breaks_start, not_not]
        rfl
      obtain ⟨r, hr⟩ : ∃ r, seesResult (checkDomain c (MAX_DNS_TERMS + 1 + turns) (dropDot input.domain) .start).1 =
          some r := by
        rcases hexact with ⟨-, r, -, -, hr, -⟩ | ⟨hr, -⟩
        · exact ⟨r, hr⟩
        · exact ⟨_, hr⟩
      obtain ⟨result, hresult, hsame⟩ := checkDomain_ok _ _ _ hr
      refine ⟨result, hresult, fun r' => ?_⟩
      rw [← hiff r', hresult]
      exact Option.some_inj.symm

end BunMail.Spf
