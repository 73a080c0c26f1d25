import BunMail.Emails.MxTransport
import BunMail.Lib.Run
import Mathlib.Data.List.Sort

/-!
# Routing and failover

`resolveMxRoute` turns the DNS answers for a recipient domain into the hosts to try, or into an
outcome that sends nothing.  `deliverWithFailover` tries the hosts in order, each host's addresses
in order, and moves a transaction on only after a connection-level failure or a `421`.  DNS
answers, rate grants, what a session answers and how long it takes are inputs.
-/

namespace BunMail.Emails

open SmtpError

/-- `MAX_MX_HOSTS_PER_ATTEMPT`. -/
def MAX_MX_HOSTS_PER_ATTEMPT : ℕ := 5

/-- `MAX_ADDRESSES_PER_HOST`. -/
def MAX_ADDRESSES_PER_HOST : ℕ := 2

/-- `SMTP_SESSION_DEADLINE_MS`: 20 minutes. -/
def SMTP_SESSION_DEADLINE_MS : ℕ := 20 * 60000

/-! ## Resolution -/

structure MxRecord where
  exchange : Text
  priority : ℕ
  deriving DecidableEq

/-- Where a domain's mail goes on an attempt; `implicit` without MX records. -/
inductive MxRoute
  | hosts (hosts : List Text) (implicit : Bool)
  | unsent (unsent : Unsent)
  deriving DecidableEq

/-- The answers for one domain; a failed lookup carries the `code` of its error, if it has one.
`ties` are the random numbers drawn, in order. -/
structure DnsAnswers where
  resolveMx : Except (Option Text) (List MxRecord)
  resolve4 : Except (Option Text) (List Text)
  resolve6 : Except (Option Text) (List Text)
  ties : ℕ → ℚ

/-- `NO_RECORDS`: codes that are an answer, not a failure. -/
def NO_RECORDS : List Text := ["ENOTFOUND", "ENODATA"].map String.toList

/-- `text.replace(/\.$/, "")`. -/
def withoutTrailingDot (s : Text) : Text := if s.getLast? = some '.' then s.dropLast else s

section Resolve

variable (toLowerCase : Text → Text)

/-- An MX exchange as a host name. -/
def hostName (exchange : Text) : Text := withoutTrailingDot (toLowerCase (Text.trim exchange))

/-- Hosts by preference, ties by their random key, a host listed twice kept once. -/
def orderMxHosts (records : List MxRecord) (ties : ℕ → ℚ) : List Text :=
  let keyed := records.zipIdx.map fun (record, i) =>
    (hostName toLowerCase record.exchange, record.priority, ties i)
  let ordered := keyed.insertionSort fun a b => a.2.1 < b.2.1 ∨ a.2.1 = b.2.1 ∧ a.2.2 ≤ b.2.2
  (ordered.map Prod.fst).eraseDups

/-- `code ?? "unknown error"`. -/
def codeText (code : Option Text) : Text := code.getD "unknown error"

/-- The domain has no MX records, as `mxCode` says: its own addresses receive its mail. -/
def implicitMx (domain mxCode : Text) (dns : DnsAnswers) : MxRoute :=
  let answers := [dns.resolve4, dns.resolve6]
  if answers.any (fun a => match a with | .ok l => l ≠ [] | .error _ => false) then
    .hosts [hostName toLowerCase domain] true
  else
    match answers.findSome? (fun a => match a with
      | .ok _ => none
      | .error code => if code.any (· ∈ NO_RECORDS) then none else some code) with
    | some code =>
      .unsent (.retry (domain ++ ": address lookup failed temporarily (".toList ++ codeText code ++
        "); will retry".toList))
    | none =>
      .unsent (.failed (domain ++ (if mxCode = "ENOTFOUND".toList then ": domain does not exist"
        else ": domain has no MX or address records").toList))

/-- Where `domain`'s mail goes for this attempt. -/
def resolveMxRoute (domain : Text) (dns : DnsAnswers) : MxRoute :=
  match dns.resolveMx with
  | .error code =>
    match code with
    | some c =>
      if c ∈ NO_RECORDS then implicitMx toLowerCase domain c dns
      else .unsent (.retry (domain ++ ": MX lookup failed temporarily (".toList ++ codeText code ++
        "); will retry".toList))
    | none => .unsent (.retry (domain ++ ": MX lookup failed temporarily (".toList ++ codeText code ++
        "); will retry".toList))
  | .ok records =>
    if records = [] then implicitMx toLowerCase domain "ENODATA" dns
    else if records.any (fun r => hostName toLowerCase r.exchange = []) then
      .unsent (.failed (domain ++ ": domain does not accept mail (null MX)".toList))
    else .hosts (orderMxHosts toLowerCase records dns.ties) false

end Resolve

/-! ## Failover -/

/-- Whether a failed transaction moves on to the next address or host. -/
def failsOver : Thrown → Bool
  | .error e =>
    match e.responseCode with
    | some code => code = 421
    | none =>
      (lines e.message).any (fun l => "421 ".toList.isPrefixOf l || "421-".toList.isPrefixOf l) ||
        classifySendFailure (.error e) = none
  | _ => true

/-- What the rate budget grants, and the wait until the next token. -/
structure Grant where
  granted : ℕ
  waitMs : ℚ
  deriving DecidableEq

/-- The inputs of one session: what the budget grants (none without a budget), the turns, and how
long it took. -/
structure SessionInputs where
  grant : Option Grant
  turn : MxTransaction → SessionTurn
  elapsedMs : ℕ

/-- The inputs for one host: its checked addresses, or why it was skipped, and the sessions by
address. -/
structure HostInputs where
  addresses : Except Thrown (List Text)
  sessions : ℕ → SessionInputs

/-- Outcomes by transaction key. -/
abbrev Outcomes := Table (Prod.fst : Text × RoutedOutcome → Text)

/-- The variables of the failover loop. -/
structure Failover where
  pending : List MxTransaction
  done : Outcomes
  lastFailure : Outcomes
  /-- The buckets each transaction took a rate token from. -/
  charged : List (Text × Text)
  budgetMs : ℤ

/-- Takes a token for every transaction not yet charged to the bucket, in order: the transactions
left without one, and the charges. -/
def admitTransactions (transactions : List MxTransaction) (bucket : Text)
    (charged : List (Text × Text)) (grant : Option Grant) :
    List (Text × ℚ) × List (Text × Text) :=
  match grant with
  | none => ([], charged)
  | some grant =>
    let uncharged := transactions.filter fun t => (t.key, bucket) ∉ charged
    if uncharged = [] then ([], charged)
    else
      ((uncharged.drop grant.granted).map fun t => (t.key, grant.waitMs),
        charged ++ (uncharged.take grant.granted).map fun t => (t.key, bucket))

/-- Files the outcome of a session: it moves on, or is done. -/
def fileOutcome (mxHost : Text) (st : Failover) (outcome : RoutedOutcome) : Failover :=
  let routed := { outcome with mxHost := some mxHost }
  if outcome.error.any failsOver then
    { st with lastFailure := st.lastFailure.put outcome.key routed }
  else { st with done := st.done.put outcome.key routed }

/-- One address of a host. -/
def tryAddress (verifiedTls : Bool) (bucketOf : Text → Text) (mxHost : Text) (st : Failover)
    (inputs : SessionInputs) : Failover :=
  if st.pending = [] ∨ st.budgetMs ≤ 0 then st
  else
    let (deferred, charged) := admitTransactions st.pending (bucketOf mxHost) st.charged inputs.grant
    let done := deferred.foldl (fun done d =>
      done.put d.1 { key := d.1, mxHost := some mxHost, deferredMs := some d.2 }) st.done
    let session := st.pending.filter fun t => t.key ∉ deferred.map Prod.fst
    let st := { st with done, charged }
    let st :=
      if session = [] then st
      else
        (runMxSession verifiedTls mxHost st.budgetMs.toNat session inputs.turn).foldl
          (fileOutcome mxHost) { st with budgetMs := st.budgetMs - inputs.elapsedMs }
    { st with pending := st.pending.filter fun t => t.key ∉ st.done.keys }

/-- One host: skipped with an error, or its first addresses in order. -/
def tryHost (verifiedTls : Bool) (bucketOf : Text → Text) (st : Failover)
    (host : Text × HostInputs) : Failover :=
  if st.pending = [] ∨ st.budgetMs ≤ 0 then st
  else
    match host.2.addresses with
    | .error e =>
      { st with lastFailure := st.pending.foldl (fun l t =>
          l.put t.key { key := t.key, error := some e }) st.lastFailure }
    | .ok addresses =>
      (List.range (addresses.take MAX_ADDRESSES_PER_HOST).length).foldl
        (fun st i => tryAddress verifiedTls bucketOf host.1 st (host.2.sessions i)) st

/-- Delivers the transactions to the first host that takes them: every transaction gets an
outcome. -/
def deliverWithFailover (domain : Text) (verifiedTls : Bool) (bucketOf : Text → Text)
    (hosts : List (Text × HostInputs)) (transactions : List MxTransaction) : List RoutedOutcome :=
  let st := (hosts.take MAX_MX_HOSTS_PER_ATTEMPT).foldl (tryHost verifiedTls bucketOf)
    ⟨transactions, Table.empty, Table.empty, [], SMTP_SESSION_DEADLINE_MS⟩
  transactions.map fun t =>
    (st.done.get? t.key <|> st.lastFailure.get? t.key).getD
      { key := t.key
        error := some (.error { message := domain ++ ": no MX host could be tried".toList }) }

/-! ## Every transaction gets an outcome of its own -/

/-- Outcomes are filed under their own key. -/
def Filed (outcomes : Outcomes) : Prop := ∀ k o, outcomes.get? k = some o → o.key = k

theorem filed_empty : Filed Table.empty := fun k o h => (by cases h)

theorem Filed.put {outcomes : Outcomes} (h : Filed outcomes) {o : RoutedOutcome} {k : Text}
    (hk : o.key = k) : Filed (outcomes.put k o) := by
  intro k' o' ho
  rw [Table.get?_put] at ho
  split_ifs at ho with hk'
  · rw [← Option.some.inj ho, hk, hk']
  · exact h k' o' ho

theorem Filed.foldl_put {α : Type} {outcomes : Outcomes} (h : Filed outcomes) (l : List α)
    (f : α → RoutedOutcome) : Filed (l.foldl (fun acc a => acc.put (f a).key (f a)) outcomes) :=
  Run.foldl_invariant Filed (fun _ _ h => h.put rfl) h l

/-- Both tables of the loop. -/
def Failover.Filed (st : Failover) : Prop := Emails.Filed st.done ∧ Emails.Filed st.lastFailure

section Failover

variable {st : Failover} {verifiedTls : Bool} {bucketOf : Text → Text} {mxHost : Text}

theorem filed_fileOutcome (h : st.Filed) (o : RoutedOutcome) : (fileOutcome mxHost st o).Filed := by
  unfold fileOutcome
  dsimp only
  split_ifs
  · exact ⟨h.1, h.2.put rfl⟩
  · exact ⟨h.1.put rfl, h.2⟩

theorem filed_tryAddress (h : st.Filed) (inputs : SessionInputs) :
    (tryAddress verifiedTls bucketOf mxHost st inputs).Filed := by
  unfold tryAddress
  split_ifs
  · exact h
  · dsimp only
    have hdone := h.1.foldl_put
      (admitTransactions st.pending (bucketOf mxHost) st.charged inputs.grant).1
      fun d => { key := d.1, mxHost := some mxHost, deferredMs := some d.2 }
    split_ifs
    · exact ⟨hdone, h.2⟩
    · refine Run.foldl_invariant Failover.Filed (fun _ o h => filed_fileOutcome h o) ?_ _
      exact ⟨hdone, h.2⟩

theorem filed_tryHost (h : st.Filed) (host : Text × HostInputs) :
    (tryHost verifiedTls bucketOf st host).Filed := by
  unfold tryHost
  split_ifs
  · exact h
  · cases host.2.addresses with
    | error e => exact ⟨h.1, h.2.foldl_put st.pending fun t => { key := t.key, error := some e }⟩
    | ok addresses =>
      exact Run.foldl_invariant Failover.Filed (fun _ _ h => filed_tryAddress h _) h _

/-- One outcome for each transaction, in order, under its key. -/
theorem deliverWithFailover_keys (domain : Text) (hosts : List (Text × HostInputs))
    (transactions : List MxTransaction) :
    (deliverWithFailover domain verifiedTls bucketOf hosts transactions).map RoutedOutcome.key =
      transactions.map MxTransaction.key := by
  unfold deliverWithFailover
  dsimp only
  have hinit : Failover.Filed ⟨transactions, Table.empty, Table.empty, [], SMTP_SESSION_DEADLINE_MS⟩ :=
    ⟨filed_empty, filed_empty⟩
  have hfiled : Failover.Filed ((hosts.take MAX_MX_HOSTS_PER_ATTEMPT).foldl
      (tryHost verifiedTls bucketOf) _) :=
    Run.foldl_invariant Failover.Filed (fun _ host h => filed_tryHost h host) hinit _
  rw [List.map_map]
  refine List.map_congr_left fun t _ => ?_
  rw [Function.comp_apply]
  generalize (hosts.take MAX_MX_HOSTS_PER_ATTEMPT).foldl _ _ = st at hfiled ⊢
  cases hd : st.done.get? t.key with
  | some o => exact hfiled.1 _ _ hd
  | none =>
    cases hl : st.lastFailure.get? t.key with
    | some o => exact hfiled.2 _ _ hl
    | none => rfl

end Failover

end BunMail.Emails
