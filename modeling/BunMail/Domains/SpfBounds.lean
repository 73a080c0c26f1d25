import BunMail.Domains.SpfExact

/-!
# What an SPF evaluation asks

Every counted term pays for eleven queries, its own and those of ten names, and the first query is free.  No
part of the evaluation asks for more than the terms counted so far have paid for.
-/

namespace BunMail.Spf

open Text Metered

/-! ## Payment -/

/-- The queries that one term pays for. -/
def QUERIES_PER_TERM : ℕ := 11

/-- The queries paid for. -/
def Evaluation.paid (ev : Evaluation) : ℕ := 1 + QUERIES_PER_TERM * min ev.lookups MAX_DNS_TERMS

/-- With `k` queries to spare, a run leaves `k'` to spare. -/
abbrev Pays {α : Type} (k k' : ℕ) (p : Eval α) : Prop := Program.Spends Evaluation.queries Evaluation.paid k k' p

variable {α β : Type} {k l n : ℕ} {p : Eval α} {f : α → Eval β}

theorem pays_pure (a : α) : Pays k k (pure a : Eval α) := Program.spends_done a (le_refl k)

theorem pays_throw (result : ErrorResult) (message : Text) : Pays k l (throwSpf result message : Eval α) :=
  Program.spends_fail _

theorem pays_bind (hp : Pays k l p) (hf : ∀ a, Pays l n (f a)) : Pays k n (p >>= f) :=
  Program.Spends.bind hp hf

theorem pays_query (lookup : Lookup α) : Pays (k + 1) k (query lookup) := by
  intro ev hev
  refine ⟨fun a ev' h => ?_, fun e ev' h => by cases h⟩
  cases h
  show ev.queries + 1 + k ≤ ev.paid
  omega

theorem pays_countLookup (what : Text) : Pays k (k + QUERIES_PER_TERM) (countLookup what) := by
  intro ev hev
  unfold Evaluation.paid at hev
  unfold countLookup
  split_ifs with hlimit
  · constructor
    · intro a ev' h
      cases h
    intro e ev' h
    cases h
    unfold Evaluation.paid
    dsimp only
    have hterms : min ev.lookups MAX_DNS_TERMS ≤ min (ev.lookups + 1) MAX_DNS_TERMS := by omega
    have hpaid := Nat.mul_le_mul_left QUERIES_PER_TERM hterms
    omega
  · refine ⟨fun a ev' h => ?_, fun e ev' h => by cases h⟩
    cases h
    unfold Evaluation.paid
    dsimp only
    have hterms : min (ev.lookups + 1) MAX_DNS_TERMS = min ev.lookups MAX_DNS_TERMS + 1 := by omega
    rw [hterms, Nat.mul_succ]
    omega

theorem pays_countVoid (name : Text) : Pays k k (countVoid name) := by
  intro ev hev
  refine ⟨fun a ev' h => ?_, fun e ev' h => ?_⟩
  · cases congrArg Prod.snd h
    exact hev
  · cases congrArg Prod.snd h
    show ev.queries ≤ ev.paid
    omega

theorem pays_lift (x : Except SpfError α) : Pays k k (lift x) := by
  cases x with
  | ok a => exact pays_pure a
  | error e => exact pays_throw e.result e.message

/-! ## The parts -/

variable (c : Context)

theorem pays_recordsOf (answer : Answer α) (name : Text) : Pays k k (recordsOf answer name) := by
  cases answer with
  | ok records => exact pays_pure records
  | error code => exact pays_throw _ _
  | void => exact pays_bind (pays_countVoid name) fun _ => pays_pure []

theorem pays_addressQuery (name : Text) : Pays (k + 1) k (addressQuery c name) := pays_query _

theorem pays_filterValid (names : List Text) : Pays (k + names.length) k (filterValid c names) := by
  induction names with
  | nil => exact pays_pure []
  | cons name names ih =>
    exact pays_bind (pays_addressQuery c name) fun answer => pays_bind ih fun rest => pays_pure _

theorem pays_validatedNames : Pays (k + QUERIES_PER_TERM) k (validatedNames c) := by
  refine pays_bind (l := k + 10) (pays_query _) fun answer => ?_
  cases answer with
  | error code => exact Program.Spends.weaken (pays_pure []) (by omega) (le_refl k)
  | void =>
    exact Program.Spends.weaken (pays_bind (pays_countVoid _) fun _ => pays_pure []) (by omega) (le_refl k)
  | ok records =>
    refine Program.Spends.weaken (pays_filterValid c _) (Nat.add_le_add_left ?_ k) (le_refl k)
    refine (List.length_filter_le _ _).trans ?_
    rw [List.length_map, List.length_take]
    exact Nat.min_le_left _ _

theorem pays_ptrNameOf (tokens : List MacroToken) (domain : Text) : Pays k k (ptrNameOf c tokens domain) := by
  unfold ptrNameOf
  split_ifs
  · refine pays_bind (pays_bind (pays_countLookup _) fun _ => ?_) fun name => pays_pure (some name)
    exact pays_bind (pays_validatedNames c) fun names => pays_pure _
  · exact pays_pure none

theorem pays_expandTarget (tokens : List MacroToken) (domain : Text) : Pays k k (expandTarget c tokens domain) :=
  pays_bind (pays_ptrNameOf c tokens domain) fun _ => pays_bind (pays_lift _) fun _ => pays_pure _

theorem pays_mechanismTarget (domainSpec : Option (List MacroToken)) (domain : Text) :
    Pays k k (mechanismTarget c domainSpec domain) := by
  cases domainSpec with
  | none => exact pays_pure _
  | some tokens => exact pays_expandTarget c tokens domain

theorem pays_anyHost (length : ℕ) (hosts : List Text) : Pays hosts.length 0 (anyHost c length hosts) := by
  induction hosts with
  | nil => exact pays_pure false
  | cons host hosts ih =>
    refine pays_bind (pays_addressQuery c host) fun answer => ?_
    cases answer with
    | error code => exact pays_throw _ _
    | void => exact ih
    | ok addresses =>
      dsimp only
      split_ifs
      · exact Program.Spends.weaken (pays_pure true) (Nat.zero_le _) (le_refl 0)
      · exact ih

theorem pays_matchesMx (target : Text) (length : ℕ) : Pays QUERIES_PER_TERM 0 (matchesMx c target length) := by
  refine pays_bind (l := MAX_NAMES_PER_ANSWER) (pays_query _) fun answer => pays_bind (pays_recordsOf _ target)
    fun records => ?_
  split_ifs with hmany
  · exact pays_throw _ _
  · exact Program.Spends.weaken (pays_anyHost c length _) (Nat.le_of_not_lt hmany) (le_refl 0)

/-! ## Evaluations -/

variable {c} {check : Text → Eval SpfCheckResult}

theorem pays_all {p : Eval α} (hp : Pays 1 0 p) : Pays QUERIES_PER_TERM 0 p :=
  Program.Spends.weaken hp (by decide) (le_refl 0)

theorem pays_nothing (a : α) : Pays QUERIES_PER_TERM 0 (pure a : Eval α) :=
  Program.Spends.weaken (pays_pure a) (Nat.zero_le _) (le_refl 0)

/-- A term pays for what it asks. -/
theorem pays_matchesKind (hcheck : ∀ target, Pays 1 0 (check target)) (term domain : Text) (kind : MechanismKind) :
    Pays 0 0 (matchesKind c check term domain kind) := by
  cases kind with
  | all | ip4 network length | ip6 network length => exact pays_pure _
  | a domainSpec cidr4 cidr6 =>
    refine pays_bind (pays_countLookup term) fun _ => pays_bind (pays_mechanismTarget c domainSpec domain)
      fun target => ?_
    cases target with
    | none => exact pays_nothing false
    | some target =>
      exact pays_all (pays_bind (pays_addressQuery c target) fun answer =>
        pays_bind (pays_recordsOf answer target) fun _ => pays_pure _)
  | mx domainSpec cidr4 cidr6 =>
    refine pays_bind (pays_countLookup term) fun _ => pays_bind (pays_mechanismTarget c domainSpec domain)
      fun target => ?_
    cases target with
    | none => exact pays_nothing false
    | some target => exact pays_matchesMx c target _
  | ptr domainSpec =>
    refine pays_bind (pays_countLookup term) fun _ => pays_bind (pays_mechanismTarget c domainSpec domain)
      fun target => ?_
    cases target with
    | none => exact pays_nothing false
    | some target => exact pays_bind (pays_validatedNames c) fun _ => pays_pure _
  | exists_ domainSpec =>
    refine pays_bind (pays_countLookup term) fun _ => pays_bind (pays_expandTarget c domainSpec domain)
      fun target => ?_
    cases target with
    | none => exact pays_nothing false
    | some target =>
      exact pays_all (pays_bind (pays_query _) fun answer =>
        pays_bind (pays_recordsOf answer target) fun _ => pays_pure _)
  | include_ domainSpec =>
    refine pays_bind (pays_countLookup term) fun _ => pays_bind (pays_expandTarget c domainSpec domain)
      fun target => ?_
    cases target with
    | none => exact pays_throw _ _
    | some target => exact pays_bind (pays_all (hcheck target)) fun inner => pays_lift _

theorem pays_unmatched (hcheck : ∀ target, Pays 1 0 (check target)) (domain : Text)
    (redirect : Option (List MacroToken)) : Pays 0 0 (unmatched c check domain redirect) := by
  cases redirect with
  | none => exact pays_pure _
  | some tokens =>
    refine pays_bind (pays_countLookup _) fun _ => pays_bind (pays_expandTarget c tokens domain) fun target => ?_
    cases target with
    | none => exact pays_nothing _
    | some target => exact pays_bind (pays_all (hcheck target)) fun inner => pays_pure _

theorem pays_directives (hcheck : ∀ target, Pays 1 0 (check target)) (domain : Text)
    (redirect : Option (List MacroToken)) (mechanisms : List SpfMechanism) :
    Pays 0 0 (directives c check domain redirect mechanisms) := by
  induction mechanisms with
  | nil => exact pays_unmatched hcheck domain redirect
  | cons mechanism mechanisms ih =>
    refine pays_bind (pays_matchesKind hcheck mechanism.term domain mechanism.kind) fun matched => ?_
    cases matched with
    | true => exact pays_pure _
    | false => exact ih

theorem pays_evaluateDomain (hcheck : ∀ target, Pays 1 0 (check target)) (domain : Text) :
    Pays 1 0 (evaluateDomain c check domain) := by
  refine pays_bind (pays_query _) fun answer => ?_
  have hrecords : ∀ records, Pays 0 0 (evaluateRecords c check domain records) := by
    intro records
    match records with
    | [] => exact pays_pure _
    | [text] => exact pays_bind (pays_lift _) fun record => pays_directives hcheck domain record.redirect _
    | _ :: _ :: _ => exact pays_pure _
  cases answer with
  | error code => exact pays_pure _
  | ok records => exact hrecords (spfRecords (.ok records))
  | void => exact hrecords (spfRecords .void)

theorem pays_catchSpf {p : Eval SpfCheckResult} (hp : Pays 1 0 p) : Pays 1 0 (catchSpf p) := by
  intro ev hev
  obtain ⟨hok, herror⟩ := hp ev hev
  have hall : (p ev).2.queries ≤ (p ev).2.paid := by
    cases hout : (p ev).1 with
    | ok result => exact hok result _ (Prod.ext hout rfl)
    | error fault => exact herror fault _ (Prod.ext hout rfl)
  obtain ⟨-, hstate⟩ := catchSpf_spec p ev
  refine ⟨fun result ev' h => ?_, fun fault ev' h => ?_⟩
  · rw [h] at hstate
    rw [show ev' = (p ev).2 from hstate]
    exact hall
  · rw [h] at hstate
    rw [show ev' = (p ev).2 from hstate]
    exact hall

theorem pays_checkDomain (turns : ℕ) (domain : Text) : Pays 1 0 (checkDomain c turns domain) := by
  induction turns generalizing domain with
  | zero => exact Program.spends_fail _
  | succ turns ih => exact pays_catchSpf (pays_evaluateDomain ih domain)

theorem checkDomain_bounded (turns : ℕ) (domain : Text) :
    let run := checkDomain c (MAX_DNS_TERMS + 1 + turns) domain .start
    run.2.lookups ≤ 11 ∧ run.2.voids ≤ 3 ∧ run.2.queries ≤ 1 + 11 * min run.2.lookups 10 ∧
      (10 < run.2.lookups ∨ 2 < run.2.voids → ∃ reason, run.1 = .ok { result := .permerror, reason }) := by
  intro run
  have hstart : spfMeter.Within .start := fun i => by cases i <;> exact Nat.zero_le _
  have hexact : spfMeter.Exact seesResult .permerror (Host c domain) .start run :=
    exact_checkDomain (c := c) (MAX_DNS_TERMS + 1 + turns) domain .start hstart (by omega)
  obtain ⟨hok, herror⟩ := pays_checkDomain (c := c) (MAX_DNS_TERMS + 1 + turns) domain .start (by decide)
  have hpaid : run.2.queries ≤ run.2.paid := by
    cases hout : run.1 with
    | ok result => exact hok result _ (Prod.ext hout rfl)
    | error fault => exact herror fault _ (Prod.ext hout rfl)
  rcases hexact with ⟨t, v, -, hwithin, -⟩ | ⟨hstop, hclose, -⟩
  · have hterms : run.2.lookups ≤ 10 := hwithin .term
    have hvoids : run.2.voids ≤ 2 := hwithin .void
    exact ⟨by omega, by omega, hpaid, fun h => by omega⟩
  · obtain ⟨result, hresult, hsame⟩ := checkDomain_ok _ _ _ hstop
    refine ⟨hclose .term, hclose .void, hpaid, fun _ => ⟨result.reason, hresult.trans ?_⟩⟩
    rw [← hsame]

/-- **`checkHost` keeps to its limits**: no more than eleven counted terms, the last of them refused, no more than
three void lookups, and eleven queries for each term that was let through and one for the domain. -/
theorem checkHost_bounded (resolver : SpfDnsResolver) (toLowerCase : Text → Text) (turns : ℕ) (input : SpfCheckInput) :
    let run := checkHost resolver toLowerCase (MAX_DNS_TERMS + 1 + turns) input
    run.2.lookups ≤ 11 ∧ run.2.voids ≤ 3 ∧ run.2.queries ≤ 1 + 11 * min run.2.lookups 10 ∧
      (10 < run.2.lookups ∨ 2 < run.2.voids → ∃ reason, run.1 = .ok { result := .permerror, reason }) := by
  unfold checkHost
  cases clientAddress input.ip with
  | none => simp [Evaluation.start]
  | some ip =>
    dsimp only
    split_ifs
    · exact checkDomain_bounded turns _
    · simp [Evaluation.start]

/-- A domain that includes itself is asked for ten times after the first. -/
example :
    let resolver : SpfDnsResolver := {
      resolveTxt := fun _ => .ok [["v=spf1 include:a.b -all".toList]], resolve4 := fun _ => .ok []
      resolve6 := fun _ => .ok [], resolveMx := fun _ => .ok [], resolvePtr := fun _ => .ok [] }
    (checkHost resolver id 11 ⟨"192.0.2.1".toList, "a.b".toList, "c@a.b".toList, "a.b".toList⟩).2 =
      { lookups := 11, voids := 0, queries := 11 } := by
  decide +kernel

end BunMail.Spf
