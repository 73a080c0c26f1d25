import BunMail.TlsRpt.Aggregate

/-!
# A TLS report is bounded and exact

A counter is created or incremented once for every recorded session, in its policy and result, whatever
the caps do to its details.
-/

namespace BunMail.TlsRpt.Aggregate

open Run Tally

/-! ## The key of a session -/

section Key

variable {existing : List ResultKey} {candidate key : ResultKey}

theorem policyKey_inj {a b : PolicyType} {s t : Text} (h : a.text ++ ' ' :: s = b.text ++ ' ' :: t) :
    a = b := by
  cases a <;> cases b
  · rfl
  · exact absurd (List.cons.inj h).1 (by decide)
  · exact absurd (List.cons.inj h).1 (by decide)
  · rfl

/-- What the details of a session cannot change. -/
structure SameKind (key candidate : ResultKey) : Prop where
  policy : key.policyKey = candidate.policyKey
  result : key.resultType = candidate.resultType

/-- A new counter has a policy with a counter, or takes a free one of the report's policies; with
details, it takes a free one of those. -/
structure Fits (existing : List ResultKey) (key : ResultKey) : Prop where
  policies : key.policyKey ∈ existing.map ResultKey.policyKey ∨
    (existing.map ResultKey.policyKey).toFinset.card < MAX_POLICIES_PER_REPORT
  details : key.isDetailed = true → existing.countP ResultKey.isDetailed < MAX_DETAIL_ROWS_PER_REPORT

theorem isDetailed_stripped (candidate : ResultKey) : ResultKey.isDetailed
    { candidate with receivingMxHostname := [], receivingIp := [], failureReasonCode := [] } = false := by
  unfold ResultKey.isDetailed ResultKey.isUndetailedFailure
  simp

/-- **The counter of a session**: one of its policy and result, which exists or has room. -/
theorem resultKeyFor_spec (h : resultKeyFor existing candidate = some key) :
    SameKind key candidate ∧ (key ∈ existing ∨ Fits existing key) := by
  unfold resultKeyFor at h
  dsimp only at h
  split_ifs at h with hold hpolicies hplain hdetails
  · obtain rfl := Option.some.inj h
    exact ⟨⟨rfl, rfl⟩, .inl hold⟩
  all_goals
    have hroom : candidate.policyKey ∈ existing.map ResultKey.policyKey ∨
        (existing.map ResultKey.policyKey).toFinset.card < MAX_POLICIES_PER_REPORT := by
      rw [not_and_or, not_not, List.mem_toFinset, not_le] at hpolicies
      exact hpolicies
  · obtain rfl := Option.some.inj h
    refine ⟨⟨rfl, rfl⟩, .inr ⟨hroom, fun hdetailed => ?_⟩⟩
    unfold ResultKey.isDetailed at hdetailed
    rw [Bool.and_eq_true, decide_eq_true_iff, Bool.not_eq_true'] at hdetailed
    rcases hplain with hsuccess | hundetailed
    · exact absurd hsuccess hdetailed.1
    · rw [hundetailed] at hdetailed
      exact absurd hdetailed.2 (by decide)
  · obtain rfl := Option.some.inj h
    exact ⟨⟨rfl, rfl⟩, .inr ⟨hroom, fun _ => hdetails⟩⟩
  · obtain rfl := Option.some.inj h
    refine ⟨⟨rfl, rfl⟩, .inr ⟨hroom, fun hdetailed => ?_⟩⟩
    rw [isDetailed_stripped] at hdetailed
    exact absurd hdetailed (by decide)

/-- The caps of a report. -/
structure Capped (keys : List ResultKey) : Prop where
  policies : (keys.map ResultKey.policyKey).toFinset.card ≤ MAX_POLICIES_PER_REPORT
  details : keys.countP ResultKey.isDetailed ≤ MAX_DETAIL_ROWS_PER_REPORT

theorem Capped.concat (h : Capped existing) (hfits : Fits existing key) : Capped (existing ++ [key]) where
  policies := by
    rw [List.map_append, List.toFinset_append, List.map_singleton, List.toFinset_cons, List.toFinset_nil,
      insert_empty_eq, Finset.union_comm, ← Finset.insert_eq]
    rcases hfits.policies with hold | hroom
    · rw [Finset.insert_eq_self.mpr (List.mem_toFinset.mpr hold)]
      exact h.policies
    · exact (Finset.card_insert_le _ _).trans hroom
  details := by
    rw [List.countP_append, List.countP_singleton]
    split_ifs with hdetailed
    · exact hfits.details hdetailed
    · exact h.details

end Key

/-! ## The tables -/

section Tables

variable {s : Store} {c : Call} {row : ResultRow} {id : Text} {reports : Table ReportRow.slot}

/-- The counters of a report after an upsert. -/
theorem readKeys_upsert :
    Store.readKeys ⟨reports, s.count row⟩ id =
      if row.reportId = id ∧ row.key ∉ s.readKeys id then s.readKeys id ++ [row.key]
      else s.readKeys id := by
  unfold Store.readKeys Store.resultsOf
  show ((Table.upsertRows ResultRow.slot row ResultRow.increment s.results.rows).filter
    (·.reportId = id)).map ResultRow.key = _
  by_cases hmem : row.slot ∈ s.results.rows.map ResultRow.slot
  · -- the row that is there keeps its report and its key
    have hkeys : ∀ r : ResultRow, (if r.slot = row.slot then r.increment else r).reportId = r.reportId ∧
        (if r.slot = row.slot then r.increment else r).key = r.key := by
      intro r
      split_ifs <;> exact ⟨rfl, rfl⟩
    have hold : ¬(row.reportId = id ∧ row.key ∉
        (s.results.rows.filter (·.reportId = id)).map ResultRow.key) := by
      rintro ⟨rfl, hnone⟩
      obtain ⟨r, hr, hslot⟩ := List.mem_map.mp hmem
      refine hnone (List.mem_map.mpr ⟨r, List.mem_filter.mpr ⟨hr, ?_⟩, congrArg Prod.snd hslot⟩)
      exact decide_eq_true (congrArg Prod.fst hslot)
    rw [if_neg hold, Table.upsertRows_of_mem hmem, List.filter_map, List.map_map]
    have hfilter : (fun r => decide (r.reportId = id)) ∘
        (fun r : ResultRow => if r.slot = row.slot then r.increment else r) =
        fun r => decide (r.reportId = id) := by
      funext r
      exact congrArg (fun reportId => decide (reportId = id)) (hkeys r).1
    rw [hfilter]
    exact List.map_congr_left fun r _ => (hkeys r).2
  · rw [Table.upsertRows_of_notMem hmem, List.filter_append]
    by_cases hid : row.reportId = id
    · have hnew : row.key ∉ (s.results.rows.filter (·.reportId = id)).map ResultRow.key := by
        rintro hkey
        obtain ⟨r, hr, hrkey⟩ := List.mem_map.mp hkey
        obtain ⟨hr, hrid⟩ := List.mem_filter.mp hr
        exact hmem (List.mem_map.mpr ⟨r, hr, Prod.ext ((of_decide_eq_true hrid).trans hid.symm) hrkey⟩)
      have hone : [row].filter (·.reportId = id) = [row] := by simp [hid]
      rw [if_pos ⟨hid, hnew⟩, hone, List.map_append]
      rfl
    · have hnone : [row].filter (·.reportId = id) = [] := by simp [hid]
      rw [if_neg (fun h => hid h.1), hnone, List.append_nil]

/-- The report of an upsert: of the call's slot, and every other one stays. -/
structure Upserted (s : Store) (c : Call) (reports : Table ReportRow.slot) (id : Text) : Prop where
  row : ∃ r, reports.find? c.slot = some r ∧ r.id = id
  frame : ∀ slot r, s.reports.find? slot = some r → reports.find? slot = some r
  ids : (reports.rows.map ReportRow.id).Nodup

theorem upsertReport_spec (hids : (s.reports.rows.map ReportRow.id).Nodup)
    (h : s.upsertReport c = some (reports, id)) : Upserted s c reports id := by
  unfold Store.upsertReport at h
  cases hfind : s.reports.find? c.slot with
  | some r =>
    rw [hfind] at h
    obtain ⟨rfl, rfl⟩ := Prod.mk.inj (Option.some.inj h)
    exact ⟨⟨r, hfind, rfl⟩, fun _ _ h => h, hids⟩
  | none =>
    rw [hfind] at h
    dsimp only at h
    split_ifs at h with hfresh
    obtain ⟨rfl, rfl⟩ := Prod.mk.inj (Option.some.inj h)
    have hnew : c.newReport.slot ∉ s.reports.keys := Table.find?_eq_none_iff.mp hfind
    refine ⟨⟨_, Table.find?_upsert_self fun _ _ => rfl, ?_⟩, fun slot r hr => ?_, ?_⟩
    · show (Option.elim (s.reports.find? c.slot) _ _ : ReportRow).id = c.id
      rw [hfind]
      rfl
    · have hne : slot ≠ c.newReport.slot := by
        rintro rfl
        exact absurd (hfind.symm.trans hr) (by simp)
      unfold Table.insert
      rw [Table.find?_upsert_ne _ hne]
      exact hr
    · rw [Table.insert_rows hnew, List.map_append, List.map_singleton]
      refine List.nodup_append.mpr ⟨hids, List.nodup_singleton _, fun a ha b hb => ?_⟩
      rw [List.mem_singleton.mp hb]
      rintro rfl
      exact hfresh ha

end Tables

/-! ## What the counters count -/

section Counted

variable (sha256 : Text → Fin 32 → UInt8) (stringify : Text → List Text → List Text → Text)

/-- The policy of a call. -/
def Call.policyKey (c : Call) : Text := (resultKeyOf sha256 stringify c.policy c.observation).policyKey

/-- A counter's report, policy and result. -/
def ResultRow.kind (row : ResultRow) : Option Text × Text × ResultType :=
  (some row.reportId, row.key.policyKey, row.key.resultType)

/-- A call's report, policy and result. -/
def Store.kindOf (s : Store) (c : Call) : Option Text × Text × ResultType :=
  ((s.reports.find? c.slot).map ReportRow.id, c.policyKey sha256 stringify, c.observation.result)

/-- Every recorded session is counted once. -/
structure Inv (r : Recording) : Prop where
  ids : (r.store.reports.rows.map ReportRow.id).Nodup
  logged : ∀ c ∈ r.log, c.slot ∈ r.store.reports.keys
  counted : (tallied ResultRow.sessionCount ResultRow.kind r.store.results.rows).Perm
    (r.log.map (r.store.kindOf sha256 stringify))
  positive : ∀ row ∈ r.store.results.rows, 0 < row.sessionCount
  capped : ∀ id, Capped (r.store.readKeys id)

variable {sha256 stringify} {r : Recording} {s : Store} {c : Call} {log : List Call} {id : Text}
  {reports : Table ReportRow.slot} {key : ResultKey}

theorem resultType_resultKeyOf {policy : Policy} {observation : Observation} :
    (resultKeyOf sha256 stringify policy observation).resultType = observation.result := by
  cases observation <;> rfl

/-- The key of a counter says what it counts. -/
theorem kind_of_slot {a b : ResultRow} (h : a.slot = b.slot) : a.kind = b.kind := by
  obtain ⟨hid, hkey⟩ := Prod.mk.inj h
  unfold ResultRow.kind
  rw [hid, hkey]

/-- What a call does. -/
theorem recordObservation_cases (s : Store) (c : Call) :
    recordObservation sha256 stringify s c = (.failed, s) ∨
      (∃ reports id, s.upsertReport c = some (reports, id) ∧
        recordObservation sha256 stringify s c = (.dropped, { s with reports })) ∨
      ∃ reports id key, s.upsertReport c = some (reports, id) ∧
        resultKeyFor (s.readKeys id) (resultKeyOf sha256 stringify c.policy c.observation) = some key ∧
        recordObservation sha256 stringify s c = (.recorded, ⟨reports, s.count (c.newResult id key)⟩) := by
  unfold recordObservation
  split_ifs with hfails
  · exact .inl rfl
  · cases hreport : s.upsertReport c with
    | none => exact .inl rfl
    | some result =>
      obtain ⟨reports, id⟩ := result
      right
      dsimp only
      cases hkey : resultKeyFor (s.readKeys id) (resultKeyOf sha256 stringify c.policy c.observation) with
      | none => exact .inl ⟨reports, id, rfl, rfl⟩
      | some key => exact .inr ⟨reports, id, key, rfl, hkey, rfl⟩

/-- An upsert of the report changes the report of no call so far. -/
theorem Inv.kindOf_upserted (h : Inv sha256 stringify ⟨s, log⟩) (hup : Upserted s c reports id)
    {results : Table ResultRow.slot} :
    log.map (Store.kindOf sha256 stringify ⟨reports, results⟩) = log.map (s.kindOf sha256 stringify) := by
  refine List.map_congr_left fun c hc => ?_
  obtain ⟨row, hrow⟩ := Option.ne_none_iff_exists'.mp
    (mt Table.find?_eq_none_iff.mp (not_not.mpr (h.logged c hc)))
  unfold Store.kindOf
  rw [hrow, hup.frame c.slot row hrow]

theorem Upserted.mem_keys (hup : Upserted s c reports id) {slot : ℕ × Text} (h : slot ∈ s.reports.keys) :
    slot ∈ reports.keys := by
  obtain ⟨row, hrow⟩ := Option.ne_none_iff_exists'.mp (mt Table.find?_eq_none_iff.mp (not_not.mpr h))
  exact Table.mem_keys_of_find? (hup.frame slot row hrow)

theorem Inv.dropped (h : Inv sha256 stringify ⟨s, log⟩) (hup : Upserted s c reports id) :
    Inv sha256 stringify ⟨{ s with reports }, log⟩ where
  ids := hup.ids
  logged := fun c hc => hup.mem_keys (h.logged c hc)
  counted := by
    rw [h.kindOf_upserted hup]
    exact h.counted
  positive := h.positive
  capped := h.capped

theorem Inv.recorded (h : Inv sha256 stringify ⟨s, log⟩) (hup : Upserted s c reports id)
    (hkey : resultKeyFor (s.readKeys id) (resultKeyOf sha256 stringify c.policy c.observation) = some key) :
    Inv sha256 stringify ⟨⟨reports, s.count (c.newResult id key)⟩, log ++ [c]⟩ := by
  obtain ⟨hsame, hfits⟩ := resultKeyFor_spec hkey
  obtain ⟨row, hrow, hid⟩ := hup.row
  refine ⟨hup.ids, fun d hd => ?_, ?_, fun d hd => ?_, fun other => ?_⟩
  · rcases List.mem_append.mp hd with hd | hd
    · exact hup.mem_keys (h.logged d hd)
    · rw [List.mem_singleton.mp hd]
      exact Table.mem_keys_of_find? hrow
  · have hkind : (c.newResult id key).kind =
        Store.kindOf sha256 stringify ⟨reports, s.count (c.newResult id key)⟩ c := by
      have hresult := hsame.result.trans resultType_resultKeyOf
      unfold ResultRow.kind Store.kindOf
      rw [hrow]
      exact Prod.ext (congrArg some hid.symm) (Prod.ext hsame.policy hresult)
    have hone : (tallied ResultRow.sessionCount ResultRow.kind (s.count (c.newResult id key)).rows).Perm
        (tallied ResultRow.sessionCount ResultRow.kind s.results.rows ++ [(c.newResult id key).kind]) :=
      tallied_upsert rfl (fun _ => rfl) (fun _ => rfl) fun _ => kind_of_slot
    rw [List.map_append, h.kindOf_upserted hup, List.map_singleton, ← hkind]
    exact hone.trans (h.counted.append_right _)
  · rcases Table.mem_upsert (fun r _ => r.slot_increment) hd with ⟨hd, -⟩ | ⟨-, rfl | ⟨old, -, -, rfl⟩⟩
    · exact h.positive d hd
    · exact Nat.one_pos
    · exact Nat.succ_pos _
  · rw [readKeys_upsert]
    split_ifs with hnew
    · obtain ⟨rfl, hnone⟩ := hnew
      exact (h.capped _).concat (hfits.resolve_left hnone)
    · exact h.capped other

/-- A step counts the session it records. -/
theorem Inv.step (h : Inv sha256 stringify r) (c : Call) :
    Inv sha256 stringify (r.step sha256 stringify c) := by
  obtain ⟨s, log⟩ := r
  unfold Recording.step
  rcases @recordObservation_cases sha256 stringify s c with
    hcall | ⟨reports, id, hreport, hcall⟩ | ⟨reports, id, key, hreport, hkey, hcall⟩
  all_goals rw [hcall]
  · exact h
  · exact h.dropped (upsertReport_spec h.ids hreport)
  · exact h.recorded (upsertReport_spec h.ids hreport) hkey

theorem inv_init : Inv sha256 stringify Recording.init where
  ids := List.nodup_nil
  logged := fun _ hc => absurd hc List.not_mem_nil
  counted := List.Perm.refl _
  positive := fun _ hrow => absurd hrow List.not_mem_nil
  capped := fun _ => ⟨Nat.zero_le _, Nat.zero_le _⟩

/-- The counters of a report count its recorded calls. -/
theorem Inv.total_resultsOf (h : Inv sha256 stringify r) {report : ReportRow}
    (hreport : report ∈ r.store.reports.rows) (q : Text × ResultType → Bool) :
    total ResultRow.sessionCount (fun row => q (row.key.policyKey, row.key.resultType))
        (r.store.resultsOf report.id) =
      (r.log.filter (·.slot = report.slot)).countP fun c =>
        q (c.policyKey sha256 stringify, c.observation.result) := by
  let here : Option Text × Text × ResultType → Bool := fun k => q k.2 && decide (k.1 = some report.id)
  have hkind : total ResultRow.sessionCount (fun row => q (row.key.policyKey, row.key.resultType))
      (r.store.resultsOf report.id) =
      total ResultRow.sessionCount (fun row => here row.kind) r.store.results.rows := by
    unfold Store.resultsOf
    rw [total_filter]
    refine congrArg (fun p => total ResultRow.sessionCount p r.store.results.rows) (funext fun row => ?_)
    refine congrArg (q _ && ·) (decide_eq_decide.mpr ?_)
    exact Option.some_inj.symm
  have hcall : ∀ c ∈ r.log, here (r.store.kindOf sha256 stringify c) =
      (q (c.policyKey sha256 stringify, c.observation.result) && decide (c.slot = report.slot)) := by
    intro c hc
    obtain ⟨row, hrow⟩ := Option.ne_none_iff_exists'.mp
      (mt Table.find?_eq_none_iff.mp (not_not.mpr (h.logged c hc)))
    obtain ⟨hmem, hslot⟩ := Table.find?_eq_some_iff.mp hrow
    have hsame : row.id = report.id ↔ c.slot = report.slot := by
      constructor
      · intro hid
        rw [← List.inj_on_of_nodup_map h.ids hmem hreport hid, hslot]
      · intro hc
        rw [Table.eq_of_key_eq hmem hreport (hslot.trans hc)]
    refine congrArg (q _ && ·) (decide_eq_decide.mpr ?_)
    show (r.store.reports.find? c.slot).map ReportRow.id = some report.id ↔ _
    rw [hrow, Option.map_some, Option.some_inj]
    exact hsame
  rw [hkind, total_kind, h.counted.countP_eq, List.countP_map, List.countP_filter]
  exact List.countP_congr fun c hc => by rw [Function.comp_apply, hcall c hc]

end Counted

/-! ## The report -/

section Report

variable (sha256 : Text → Fin 32 → UInt8) (stringify : Text → List Text → List Text → Text)

/-- The number of calls of a policy whose result meets `q`. -/
def callsOf (log : List Call) (p : Text) (q : ResultType → Prop) [DecidablePred q] : ℕ :=
  log.countP fun c => decide (c.policyKey sha256 stringify = p) && decide (q c.observation.result)

/-- An entry's numbers are those of its policy's calls. -/
structure EntryExact (log : List Call) (p : Text) (entry : PolicyJson) : Prop where
  policyType : ∀ c ∈ log, c.policyKey sha256 stringify = p → c.policy.type = entry.policyType
  successful : entry.totalSuccessfulSessionCount = callsOf sha256 stringify log p (· = .success)
  failed : entry.totalFailureSessionCount = callsOf sha256 stringify log p (· ≠ .success)
  details : ∀ type, total FailureDetailJson.failedSessionCount (·.resultType = .failure type)
    (entry.failureDetails.getD []) = callsOf sha256 stringify log p (· = .failure type)

/-- One entry for each policy that was recorded, and every call in one of them. -/
structure ReportExact (log : List Call) (report : TlsRptReportJson) : Prop where
  entries : ∃ policies : List Text, policies.Nodup ∧
    (∀ p, p ∈ policies ↔ ∃ c ∈ log, c.policyKey sha256 stringify = p) ∧
    List.Forall₂ (EntryExact sha256 stringify log) policies report.policies
  total : (report.policies.map fun entry =>
    entry.totalSuccessfulSessionCount + entry.totalFailureSessionCount).sum = log.length

variable {sha256 stringify} {isIP : Text → ℕ} {r : Recording} {report : ReportRow} {input : ReportInput}
  {rows : List ResultRow} {log : List Call} {p : Text} {entry : PolicyJson}

theorem Capped.perm {keys keys' : List ResultKey} (h : Capped keys) (hperm : keys'.Perm keys) :
    Capped keys' where
  policies := by
    rw [List.toFinset_eq_of_perm _ _ (hperm.map _)]
    exact h.policies
  details := by
    rw [hperm.countP_eq]
    exact h.details

/-- The numbers of an entry are totals of its rows. -/
theorem policyEntry_spec (h : policyEntry isIP input rows = some entry) :
    (∃ row ∈ rows, entry.policyType = row.key.policyType) ∧
      entry.totalSuccessfulSessionCount = total ResultRow.sessionCount ResultRow.isSuccess rows ∧
      entry.totalFailureSessionCount = total ResultRow.sessionCount ResultRow.isFailure rows ∧
      ∀ type, total FailureDetailJson.failedSessionCount (·.resultType = .failure type)
          (entry.failureDetails.getD []) =
        total ResultRow.sessionCount (·.key.resultType = .failure type) rows := by
  obtain _ | ⟨first, rest⟩ := rows
  · exact absurd h (by simp [policyEntry])
  · have hperm : (failuresOf (first :: rest)).Perm ((first :: rest).filter ResultRow.isFailure) :=
      List.mergeSort_perm _ _
    obtain rfl := Option.some.inj h
    refine ⟨⟨first, List.mem_cons_self, rfl⟩, rfl, (hperm.map ResultRow.sessionCount).sum_eq, ?_⟩
    intro type
    have hdetails : ∀ l : List FailureDetailJson, (unlessEmpty l).getD [] = l := by
      intro l
      unfold unlessEmpty
      split_ifs with hnone
      · exact hnone.symm
      · rfl
    dsimp only
    rw [hdetails, total_map _ (fun _ => rfl), total_perm hperm, total_filter]
    refine congrArg (fun p => total ResultRow.sessionCount p _) (funext fun row => ?_)
    unfold ResultRow.isFailure failureDetail
    cases row.key.resultType <;> simp

/-- The rows of a policy count its calls. -/
theorem total_policy (h : ∀ q : Text × ResultType → Bool,
      total ResultRow.sessionCount (fun row => q (row.key.policyKey, row.key.resultType)) rows =
        log.countP fun c => q (c.policyKey sha256 stringify, c.observation.result))
    (p : Text) (q : ResultType → Prop) [DecidablePred q] :
    total ResultRow.sessionCount (fun row => decide (q row.key.resultType))
        (rows.filter (·.key.policyKey = p)) = callsOf sha256 stringify log p q := by
  rw [total_filter]
  refine Eq.trans ?_ ((h fun k => decide (q k.2) && decide (k.1 = p)).trans ?_)
  · rfl
  · exact List.countP_congr fun c _ => by rw [Bool.and_comm]

theorem entryExact (hcalls : ∀ q : Text × ResultType → Bool,
      total ResultRow.sessionCount (fun row => q (row.key.policyKey, row.key.resultType)) rows =
        log.countP fun c => q (c.policyKey sha256 stringify, c.observation.result))
    (h : policyEntry isIP input (rows.filter (·.key.policyKey = p)) = some entry) :
    EntryExact sha256 stringify log p entry := by
  obtain ⟨⟨row, hrow, htype⟩, hsuccessful, hfailed, hdetails⟩ := policyEntry_spec h
  refine ⟨fun c _ hp => ?_, ?_, ?_, fun type => ?_⟩
  · have hkey : row.key.policyKey = c.policyKey sha256 stringify :=
      (of_decide_eq_true (List.mem_filter.mp hrow).2).trans hp.symm
    have hsame := policyKey_inj hkey
    rw [htype, hsame]
    cases c.observation <;> rfl
  · exact hsuccessful.trans (total_policy hcalls p (· = .success))
  · exact hfailed.trans (total_policy hcalls p (· ≠ .success))
  · exact (hdetails type).trans (total_policy hcalls p (· = .failure type))

theorem isSome_policyEntry (h : rows ≠ []) : ∃ entry, policyEntry isIP input rows = some entry := by
  obtain ⟨first, rest, rfl⟩ := List.exists_cons_of_ne_nil h
  exact ⟨_, rfl⟩

/-- The entries of the groups, one for one. -/
theorem forall₂_entries {groups : List (Text × List ResultRow)} {R : Text → PolicyJson → Prop}
    (h : ∀ group ∈ groups, ∃ entry, policyEntry isIP input group.2 = some entry ∧ R group.1 entry) :
    List.Forall₂ R (groups.map Prod.fst) (groups.filterMap fun group => policyEntry isIP input group.2) := by
  induction groups with
  | nil => exact List.Forall₂.nil
  | cons group groups ih =>
    obtain ⟨entry, hentry, hR⟩ := h group List.mem_cons_self
    rw [List.map_cons, List.filterMap_cons, hentry]
    exact List.Forall₂.cons hR (ih fun g hg => h g (List.mem_cons_of_mem _ hg))

theorem sum_entries {groups : List (Text × List ResultRow)} (h : ∀ group ∈ groups, group.2 ≠ []) :
    ((groups.filterMap fun group => policyEntry isIP input group.2).map fun entry =>
      entry.totalSuccessfulSessionCount + entry.totalFailureSessionCount).sum =
      ((groups.flatMap Prod.snd).map ResultRow.sessionCount).sum := by
  induction groups with
  | nil => rfl
  | cons group groups ih =>
    obtain ⟨entry, hentry⟩ : ∃ entry, policyEntry isIP input group.2 = some entry :=
      isSome_policyEntry (h group List.mem_cons_self)
    obtain ⟨-, hsuccessful, hfailed, -⟩ := policyEntry_spec hentry
    have hboth : entry.totalSuccessfulSessionCount + entry.totalFailureSessionCount =
        (group.2.map ResultRow.sessionCount).sum := by
      rw [hsuccessful, hfailed]
      exact total_add_total fun row => by unfold ResultRow.isFailure ResultRow.isSuccess; simp
    rw [List.filterMap_cons, hentry, List.flatMap_cons, List.map_append, List.sum_append, ← hboth]
    dsimp only
    rw [List.map_cons, List.sum_cons, ih fun g hg => h g (List.mem_cons_of_mem _ hg)]

theorem reportExact_build (hpos : ∀ row ∈ input.results, 0 < row.sessionCount)
    (hcalls : ∀ q : Text × ResultType → Bool,
      total ResultRow.sessionCount (fun row => q (row.key.policyKey, row.key.resultType)) input.results =
        log.countP fun c => q (c.policyKey sha256 stringify, c.observation.result)) :
    ReportExact sha256 stringify log (buildReport isIP input) where
  entries := by
    refine ⟨(Table.groupBy (fun row : ResultRow => row.key.policyKey) input.results).keys,
      (Table.groupBy _ _).unique, fun p => ?_, forall₂_entries fun group hgroup => ?_⟩
    · -- a policy has a row when it has a call
      have hsame := hcalls fun k => decide (k.1 = p)
      have hrow : p ∈ (Table.groupBy (fun row : ResultRow => row.key.policyKey) input.results).keys ↔
          ∃ row ∈ input.results, row.key.policyKey = p := by
        unfold Table.keys
        rw [List.mem_map]
        constructor
        · rintro ⟨group, hgroup, rfl⟩
          obtain ⟨hrows, hne⟩ := (Table.mem_groupBy_iff _).mp hgroup
          obtain ⟨row, hrow⟩ := List.exists_mem_of_ne_nil _ hne
          rw [hrows] at hrow
          exact ⟨row, (List.mem_filter.mp hrow).1, of_decide_eq_true (List.mem_filter.mp hrow).2⟩
        · rintro ⟨row, hrow, rfl⟩
          refine ⟨(row.key.policyKey, input.results.filter (·.key.policyKey = row.key.policyKey)), ?_, rfl⟩
          exact (Table.mem_groupBy_iff _).mpr ⟨rfl, List.ne_nil_of_mem
            (List.mem_filter.mpr ⟨hrow, decide_eq_true rfl⟩)⟩
      have hcount := (total_pos hpos (p := fun row => decide (row.key.policyKey = p))).symm
      rw [hrow]
      refine Iff.trans ?_ (hcount.trans ?_)
      · simp only [decide_eq_true_iff]
      · rw [hsame, List.countP_pos_iff]
        simp only [decide_eq_true_iff]
    · obtain ⟨hrows, hne⟩ := (Table.mem_groupBy_iff _).mp hgroup
      obtain ⟨entry, hentry⟩ : ∃ entry, policyEntry isIP input group.2 = some entry :=
        isSome_policyEntry hne
      refine ⟨entry, hentry, ?_⟩
      rw [hrows] at hentry
      exact entryExact hcalls hentry
  total := by
    have hall := hcalls fun _ => true
    rw [List.countP_true] at hall
    unfold buildReport
    dsimp only
    rw [sum_entries fun group hgroup => ((Table.mem_groupBy_iff _).mp hgroup).2,
      ((Table.perm_groupBy _ input.results).map ResultRow.sessionCount).sum_eq, ← hall]
    unfold total
    rw [List.filter_true]

/-- **The rows of a report keep its caps, and the report built from them is exact**: one entry for each
policy with a recorded session, whose numbers are those of its recorded sessions. -/
theorem aggregation_exact (sha256 : Text → Fin 32 → UInt8)
    (stringify : Text → List Text → List Text → Text) (isIP : Text → ℕ) (calls : List Call)
    (hreport : report ∈
      (run (Recording.step sha256 stringify) Recording.init calls).store.reports.rows)
    (hrows : input.results.Perm
      ((run (Recording.step sha256 stringify) Recording.init calls).store.resultsOf report.id)) :
    (input.results.map ResultRow.key).Nodup ∧ Capped (input.results.map ResultRow.key) ∧
      ReportExact sha256 stringify
        ((run (Recording.step sha256 stringify) Recording.init calls).log.filter (·.slot = report.slot))
        (buildReport isIP input) := by
  have hinv : Inv sha256 stringify (run (Recording.step sha256 stringify) Recording.init calls) :=
    foldl_invariant (Inv sha256 stringify) (fun r c h => h.step c) inv_init calls
  generalize run (Recording.step sha256 stringify) Recording.init calls = r at *
  have hkeys := hrows.map ResultRow.key
  refine ⟨?_, (hinv.capped report.id).perm hkeys, reportExact_build ?_ fun q => ?_⟩
  · -- rows of one report have different keys
    rw [hkeys.nodup_iff]
    have hslots : ((r.store.resultsOf report.id).map ResultRow.slot).Nodup :=
      (List.filter_sublist.map ResultRow.slot).nodup r.store.results.unique
    refine List.Nodup.map_on (fun a ha b hb hkey => ?_) hslots.of_map
    refine List.inj_on_of_nodup_map hslots ha hb (Prod.ext ?_ hkey)
    exact (of_decide_eq_true (List.mem_filter.mp ha).2).trans
      (of_decide_eq_true (List.mem_filter.mp hb).2).symm
  · intro row hrow
    exact hinv.positive row (List.mem_filter.mp (hrows.subset hrow)).1
  · rw [total_perm hrows]
    exact hinv.total_resultsOf hreport q

/-! ## A day with two sessions -/

/-- The array of a policy without lines. -/
def plainJson (type : Text) (_ _ : List Text) : Text := "[\"".toList ++ type ++ "\",[],[]]".toList

/-- The digest of that array for `no-policy-found`. -/
def plainDigest (_ : Text) (i : Fin 32) : UInt8 :=
  [222, 198, 192, 168, 137, 77, 121, 24, 100, 9, 179, 120, 234, 215, 170, 41, 227, 180, 232, 103, 132, 244,
    249, 11, 79, 206, 193, 142, 103, 120, 20, 34].getD i 0

theorem jitter_pos : 0 < 4 * 60 * minuteMs := by decide

def plainCall (observation : Observation) (seenAt : Time) (id : Text) : Call where
  domain := "example.com"
  policy := ⟨.noPolicyFound, [], []⟩
  observation := observation
  seenAt := seenAt
  random := ⟨0, jitter_pos⟩
  id := id
  rfcReportId := "9f0c"
  fails := false

def twoSessions : List Call :=
  [plainCall .success 1000 "trp_1",
    plainCall (.failure .starttlsNotSupported "mx.example.com" "192.0.2.1" .starttlsRefused) 2000 "trp_2"]

def twoSessionsInput : ReportInput where
  organizationName := "example.org"
  contactEmail := "tls@example.org"
  rfcReportId := "9f0c"
  day := "1970-01-01"
  policyDomain := "example.com"
  results := (run (Recording.step plainDigest plainJson) Recording.init twoSessions).store.resultsOf "trp_1"
  sendingIps := ["192.0.2.9"]

theorem aggregation_exact_twoSessions :
    (twoSessionsInput.results.map ResultRow.key).Nodup ∧ Capped (twoSessionsInput.results.map ResultRow.key) ∧
      ReportExact plainDigest plainJson
        ((run (Recording.step plainDigest plainJson) Recording.init twoSessions).log.filter
          (·.slot = (0, "example.com".toList)))
        (buildReport (fun ip => if ip = [] then 0 else 4) twoSessionsInput) := by
  have hreport : ReportRow.mk "trp_1" 0 "example.com" "9f0c" (reportDueAt 0 ⟨0, jitter_pos⟩) ∈
      (run (Recording.step plainDigest plainJson) Recording.init twoSessions).store.reports.rows := by
    decide +kernel
  exact aggregation_exact plainDigest plainJson _ twoSessions hreport (List.Perm.refl _)

end Report

end BunMail.TlsRpt.Aggregate
