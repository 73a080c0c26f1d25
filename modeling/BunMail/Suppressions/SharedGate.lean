import BunMail.Suppressions.Precedence

/-!
# The shared hard-suppression gate

With `SUPPRESSIONS_SHARED_HARD` an address is refused under every key while some row arms the
gate: a permanent hard bounce, or a permanent complaint that still names its source email.  An
automatic event never disarms a row.  The hard deletion of the source email of a complaint does,
since the foreign key clears the column the gate recognises the complaint by, and a complaint
filed over a permanent complaint without a source leaves that row as it is.
-/

namespace BunMail.SuppressionList

open Run

/-- The row of the key and address arms the gate. -/
def Db.armed (db : Db) (k : Text × Text) : Bool :=
  (db.findRow k).any (sharedHardSuppressionWhere k.2)

section SharedGate

variable {toLowerCase : Text → Text} {db : Db} {op : Op} {u : Upsert} {k : Text × Text}
  {r : Suppression}

/-! ## Armed rows -/

theorem sharedHardSuppressionWhere_iff {target : Text} :
    sharedHardSuppressionWhere target r = true ↔ r.email = target ∧ r.expiresAt = none ∧
      (r.reason = .bounce ∧ r.bounceType = some .hard ∨
        r.reason = .complaint ∧ r.sourceEmailId.isSome) := by
  unfold sharedHardSuppressionWhere
  simp only [Bool.and_eq_true, Bool.or_eq_true, decide_eq_true_eq, Option.isNone_iff_eq_none]
  constructor
  · rintro ⟨⟨⟨he, hx⟩, _⟩, h⟩
    exact ⟨he, hx, h⟩
  · rintro ⟨he, hx, h⟩
    exact ⟨⟨⟨he, hx⟩, h.imp And.left And.left⟩, h⟩

theorem armed_iff :
    db.armed k = true ↔ ∃ r, db.findRow k = some r ∧ sharedHardSuppressionWhere k.2 r = true :=
  Option.any_eq_true _ _

theorem armed_of_findRow (hf : db.findRow k = some r) :
    db.armed k = sharedHardSuppressionWhere k.2 r := by
  unfold Db.armed
  rw [hf, Option.any_some]

theorem armed_congr {db' : Db} (h : db'.findRow k = db.findRow k) : db'.armed k = db.armed k := by
  unfold Db.armed
  rw [h]

theorem email_of_findRow (hf : db.findRow k = some r) : r.email = k.2 :=
  congrArg Prod.snd (Table.key_of_find? hf)

/-- An armed row makes the gate refuse its address under every key. -/
theorem hasSharedHardSuppression_of_armed (h : db.armed k = true) :
    hasSharedHardSuppression db.suppressions k.2 = true := by
  obtain ⟨r, hf, hr⟩ := armed_iff.mp h
  exact List.any_eq_true.mpr ⟨r, Table.mem_of_find? hf, hr⟩

/-! ## One step -/

/-- A statement that rewrites an armed row: the guard of a bounce or an unsubscribe lets no
permanent row through, and a complaint names its source email. -/
theorem armed_set (ha : op.automatic) (hu : op.upsert? toLowerCase = some u)
    (hr : sharedHardSuppressionWhere k.2 r = true) (hw : u.setWhere r = true) :
    sharedHardSuppressionWhere k.2 (u.set r) = true := by
  obtain ⟨he, hx, _⟩ := sharedHardSuppressionWhere_iff.mp hr
  rw [sharedHardSuppressionWhere_iff]
  cases op with
  | addFromBounce apiKeyId input id now =>
    cases hu
    simp [addFromBounceUpsert, hx] at hw
  | addFromUnsubscribe input id now =>
    cases hu
    simp [addFromUnsubscribeUpsert, hx] at hw
  | addFromComplaint input id now =>
    cases hu
    exact ⟨he, rfl, .inr ⟨rfl, rfl⟩⟩
  | createSuppression | deleteSuppression | deleteSuppressionByIdUnscoped | hardDeleteEmails =>
    cases ha

theorem armed_step_automatic (ha : op.automatic) (h : db.armed k = true) :
    (step toLowerCase db op).armed k = true := by
  obtain ⟨r, hf, hr⟩ := armed_iff.mp h
  obtain ⟨u, hu⟩ := exists_upsert_of_automatic toLowerCase ha
  rcases findRow_step db hu k with hs | ⟨_, ⟨hn, _⟩ | ⟨r', hf', hw, _, hs⟩⟩
  · rw [armed_congr hs, h]
  · rw [hf] at hn; cases hn
  · cases hf.symm.trans hf'
    rw [armed_of_findRow hs]
    exact armed_set ha hu hr hw

/-- A manual row never arms the gate: it has neither a bounce type nor a source email. -/
theorem not_sharedHard_manual (target : Text) (hb : r.bounceType = none)
    (hs : r.sourceEmailId = none) : sharedHardSuppressionWhere target r = false := by
  rw [← Bool.not_eq_true, sharedHardSuppressionWhere_iff, hb, hs]
  rintro ⟨_, _, ⟨_, h⟩ | ⟨_, h⟩⟩ <;> cases h

variable (toLowerCase) in
/-- The condition on a step: the tenant neither deletes nor overwrites the row of the key and
address, and no hard deletion takes the source email of a complaint. -/
def KeepsArmed (k : Text × Text) (db : Db) : Op → Prop
  | .addFromBounce .. | .addFromUnsubscribe .. | .addFromComplaint .. => True
  | .createSuppression apiKeyId input .. =>
    (apiKeyId, normaliseEmail toLowerCase input.email) = k →
      ∀ r ∈ db.findRow k, r.permanentComplaint
  | .deleteSuppression id apiKeyId => ∀ r ∈ db.findRow k, ¬ (r.id = id ∧ r.apiKeyId = apiKeyId)
  | .deleteSuppressionByIdUnscoped id => ∀ r ∈ db.findRow k, r.id ≠ id
  | .hardDeleteEmails ids =>
    ∀ r ∈ db.findRow k, r.reason = .complaint → ∀ e ∈ r.sourceEmailId, e ∉ ids

theorem findRow_delete {p : Suppression → Bool} (hf : db.findRow k = some r) :
    Db.findRow { db with suppressions := db.suppressions.deleteWhere p } k =
      if p r then none else some r := by
  unfold Db.findRow at hf ⊢
  rw [Table.find?_deleteWhere, hf, Option.filter_some]
  cases p r <;> rfl

theorem armed_delete_iff {p : Suppression → Bool} (h : db.armed k = true) :
    Db.armed { db with suppressions := db.suppressions.deleteWhere p } k = true ↔
      ∀ r ∈ db.findRow k, p r = false := by
  obtain ⟨r, hf, hr⟩ := armed_iff.mp h
  unfold Db.armed
  rw [findRow_delete hf, hf]
  cases hp : p r <;> simp [hp, hr]

theorem armed_hardDelete_iff {ids : List Text} (h : db.armed k = true) :
    (hardDeleteEmails db ids).armed k = true ↔
      ∀ r ∈ db.findRow k, r.reason = .complaint → ∀ e ∈ r.sourceEmailId, e ∉ ids := by
  obtain ⟨r, hf, hr⟩ := armed_iff.mp h
  have hrow : (hardDeleteEmails db ids).findRow k = some (r.clearSource ids) := by
    unfold Db.findRow hardDeleteEmails
    rw [Table.find?_updateAll, show db.suppressions.find? k = some r from hf, Option.map_some]
  rw [armed_of_findRow hrow, sharedHardSuppressionWhere_iff, hf]
  obtain ⟨he, hx, hreason⟩ := sharedHardSuppressionWhere_iff.mp hr
  unfold Suppression.clearSource
  split_ifs with hs
  · -- the source is cleared, which only a hard bounce survives
    obtain ⟨e, hse, hin⟩ := (Option.any_eq_true _ _).mp hs
    rw [decide_eq_true_eq] at hin
    constructor
    · rintro ⟨_, _, ⟨hb, _⟩ | ⟨_, hnone⟩⟩
      · rintro r' ⟨⟩ hc
        rw [hb] at hc
        cases hc
      · cases hnone
    · intro hkeep
      rcases hreason with hb | ⟨hc, _⟩
      · exact ⟨he, hx, .inl hb⟩
      · exact absurd hin (hkeep r rfl hc e hse)
  · refine ⟨?_, fun _ => ⟨he, hx, hreason⟩⟩
    rintro _ r' ⟨⟩ _ e hse hin
    exact hs ((Option.any_eq_true _ _).mpr ⟨e, hse, by simpa using hin⟩)

theorem armed_create_iff {apiKeyId : Text} {input : CreateSuppressionInput} {id id' : Text}
    {now : Time} (h : db.armed k = true) :
    (step toLowerCase db (.createSuppression apiKeyId input id id' now)).armed k = true ↔
      ((apiKeyId, normaliseEmail toLowerCase input.email) = k →
        ∀ r ∈ db.findRow k, r.permanentComplaint) := by
  have hu : Op.upsert? toLowerCase (.createSuppression apiKeyId input id id' now) =
      some (createSuppressionUpsert toLowerCase apiKeyId input id now) := rfl
  obtain ⟨r, hf, hr⟩ := armed_iff.mp h
  obtain ⟨_, hx, _⟩ := sharedHardSuppressionWhere_iff.mp hr
  rcases findRow_step db hu k with hs | ⟨hk, ⟨hn, _⟩ | ⟨r', hf', hw, _, hs⟩⟩
  · -- the row is as it was: another key, or a guard that held
    rw [armed_congr hs, h]
    refine ⟨?_, fun _ => rfl⟩
    rintro _ hk r' hr'
    cases hf.symm.trans hr'
    by_contra hc
    have hreason : r.reason ≠ .complaint := fun hreason => hc ⟨hreason, hx⟩
    rw [step_upsert db hu] at hs
    have hrow := findRow_afterUpsert_some
      (u := createSuppressionUpsert toLowerCase apiKeyId input id now) (r := r) (by rw [← hf, ← hk]; rfl)
    have hset : ((createSuppressionUpsert toLowerCase apiKeyId input id now).setWhere r &&
        db.references ((createSuppressionUpsert toLowerCase apiKeyId input id now).set r)) = true := by
      simp [createSuppressionUpsert, Db.references, hreason]
    rw [if_pos hset, show (createSuppressionUpsert toLowerCase apiKeyId input id now).row.key = k
      from hk, hs, hf, Option.some.injEq] at hrow
    have := not_sharedHard_manual k.2
      (r := (createSuppressionUpsert toLowerCase apiKeyId input id now).set r) rfl rfl
    rw [← hrow, hr] at this
    cases this
  · rw [hf] at hn; cases hn
  · cases hf.symm.trans hf'
    rw [armed_of_findRow hs, not_sharedHard_manual _ rfl rfl]
    refine ⟨fun hfalse => (by cases hfalse), fun hkeep => ?_⟩
    rw [setWhere_permanentComplaint hu (hkeep hk r hf)] at hw
    cases hw

/-- An armed row stays armed over a step exactly when the step meets the condition. -/
theorem armed_step_iff (h : db.armed k = true) :
    (step toLowerCase db op).armed k = true ↔ KeepsArmed toLowerCase k db op := by
  cases op with
  | addFromBounce | addFromUnsubscribe | addFromComplaint =>
    exact ⟨fun _ => trivial, fun _ => armed_step_automatic rfl h⟩
  | createSuppression apiKeyId input id id' now => exact armed_create_iff h
  | deleteSuppression id apiKeyId =>
    refine (armed_delete_iff h).trans (forall₂_congr fun r _ => ?_)
    rw [Bool.and_eq_false_iff, decide_eq_false_iff_not, decide_eq_false_iff_not, ← not_and_or]
  | deleteSuppressionByIdUnscoped id =>
    refine (armed_delete_iff h).trans (forall₂_congr fun r _ => ?_)
    rw [decide_eq_false_iff_not]
  | hardDeleteEmails ids => exact armed_hardDelete_iff h

/-! ## Runs -/

/-- An armed row is armed in every state of a run exactly when each step meets the condition. -/
theorem armed_run_iff {ops : List Op} (h : db.armed k = true) :
    (∀ as, as <+: ops → (run (step toLowerCase) db as).armed k = true) ↔
      Along (step toLowerCase) (KeepsArmed toLowerCase k) db ops := by
  constructor
  · intro hall
    rw [along_iff_forall_concat]
    intro as op hp
    have hnow := hall as ((List.prefix_append _ _).trans hp)
    rw [← armed_step_iff hnow, ← run_concat (step toLowerCase)]
    exact hall _ hp
  · rintro hc as ⟨bs, rfl⟩
    exact invariant (fun d => Db.armed d k = true) (fun d op hd hk => (armed_step_iff hd).mpr hk)
      h (along_append.mp hc).1

/-- After a complaint went through, its row arms the gate exactly when it was not a permanent
complaint without a source email before. -/
theorem armed_addFromComplaint_iff {input : AddFromComplaintInput} {id : Text} {now : Time}
    {p : Db × Option Suppression} (hok : addFromComplaint toLowerCase db input id now = .ok p) :
    p.1.armed (input.apiKeyId, normaliseEmail toLowerCase input.email) = true ↔
      ∀ r ∈ db.findRow (input.apiKeyId, normaliseEmail toLowerCase input.email),
        r.permanentComplaint → r.sourceEmailId ≠ none := by
  have hnew := findRow_of_upsert_ok hok
  change p.1.findRow (input.apiKeyId, normaliseEmail toLowerCase input.email) =
    some (Option.elim (db.findRow (input.apiKeyId, normaliseEmail toLowerCase input.email)) _ _) at hnew
  rw [armed_of_findRow hnew, sharedHardSuppressionWhere_iff]
  cases hf : db.findRow (input.apiKeyId, normaliseEmail toLowerCase input.email) with
  | none => exact ⟨fun _ r hr => (by cases hr), fun _ => ⟨rfl, rfl, .inr ⟨rfl, rfl⟩⟩⟩
  | some r =>
    have hemail := email_of_findRow hf
    rw [Option.elim_some]
    by_cases hc : r.permanentComplaint
    · have hw := setWhere_permanentComplaint
        (show Op.upsert? toLowerCase (.addFromComplaint input id now) = some _ from rfl) hc
      rw [if_neg (by rw [hw]; decide)]
      obtain ⟨hreason, hx⟩ := hc
      constructor
      · rintro ⟨_, _, ⟨hb, _⟩ | ⟨_, hs⟩⟩
        · rw [hreason] at hb; cases hb
        · rintro r' ⟨⟩ _ hnone
          rw [hnone] at hs
          cases hs
      · intro hs
        exact ⟨hemail, hx, .inr ⟨hreason, Option.isSome_iff_ne_none.mpr (hs r rfl ⟨hreason, hx⟩)⟩⟩
    · have hw : (addFromComplaintUpsert toLowerCase input id now).setWhere r = true := by
        simp only [addFromComplaintUpsert, Bool.or_eq_true, decide_eq_true_eq]
        by_cases hreason : r.reason = .complaint
        · exact .inl (Option.isSome_iff_ne_none.mpr fun hx => hc ⟨hreason, hx⟩)
        · exact .inr hreason
      rw [if_pos hw]
      refine ⟨?_, fun _ => ⟨hemail, rfl, .inr ⟨rfl, rfl⟩⟩⟩
      rintro _ r' ⟨⟩ hc'
      exact absurd hc' hc

/-- A manual addition that is written does not arm the gate, so an armed row was armed before. -/
theorem mem_rows_of_create {apiKeyId : Text} {input : CreateSuppressionInput} {id id' : Text}
    {now : Time} {target : Text}
    (hr : r ∈ (step toLowerCase db (.createSuppression apiKeyId input id id' now)).suppressions.rows)
    (hs : sharedHardSuppressionWhere target r = true) : r ∈ db.suppressions.rows := by
  have hu : Op.upsert? toLowerCase (.createSuppression apiKeyId input id id' now) =
      some (createSuppressionUpsert toLowerCase apiKeyId input id now) := rfl
  have hf := Table.find?_of_mem hr
  rcases findRow_step db hu r.key with h | ⟨_, ⟨_, h⟩ | ⟨r', _, _, _, h⟩⟩
  · exact Table.mem_of_find? (h.symm.trans hf)
  · rw [← Option.some.inj (h.symm.trans hf)] at hs
    rw [not_sharedHard_manual _ rfl rfl] at hs
    cases hs
  · rw [← Option.some.inj (h.symm.trans hf)] at hs
    rw [not_sharedHard_manual _ rfl rfl] at hs
    cases hs

theorem mem_rows_of_creates {ops : List Op} {target : Text}
    (hc : ∀ op ∈ ops, ∃ apiKeyId input id id' now, op = .createSuppression apiKeyId input id id' now)
    (hr : r ∈ (run (step toLowerCase) db ops).suppressions.rows)
    (hs : sharedHardSuppressionWhere target r = true) : r ∈ db.suppressions.rows := by
  induction ops generalizing db with
  | nil => exact hr
  | cons op ops ih =>
    obtain ⟨apiKeyId, input, id, id', now, rfl⟩ := hc op List.mem_cons_self
    exact mem_rows_of_create (ih (fun o ho => hc o (List.mem_cons_of_mem _ ho)) hr) hs

variable (toLowerCase) in
/-- What keeps the shared gate armed, from a database and along any run of operations. -/
structure GateArmed (db : Db) (ops : List Op) : Prop where
  /-- An armed row stays armed exactly as long as no step deletes it, overwrites it manually or
  hard-deletes the source email of a complaint. -/
  stays : ∀ as bs k, as ++ bs <+: ops → (run (step toLowerCase) db as).armed k = true →
    ((∀ cs, cs <+: bs → (run (step toLowerCase) db (as ++ cs)).armed k = true) ↔
      Along (step toLowerCase) (KeepsArmed toLowerCase k) (run (step toLowerCase) db as) bs)
  /-- After a complaint the address is refused under every key, unless the key's row already was
  a permanent complaint without a source email. -/
  complaint : ∀ as, as <+: ops → ∀ input id now p,
    addFromComplaint toLowerCase (run (step toLowerCase) db as) input id now = .ok p →
      (∀ r ∈ (run (step toLowerCase) db as).findRow
          (input.apiKeyId, normaliseEmail toLowerCase input.email),
        r.permanentComplaint → r.sourceEmailId ≠ none) →
      p.1.armed (input.apiKeyId, normaliseEmail toLowerCase input.email) = true ∧
        hasSharedHardSuppression p.1.suppressions (normaliseEmail toLowerCase input.email) = true
  /-- Manual additions alone arm no row. -/
  manual : ∀ as, as <+: ops → ∀ creates : List Op,
    (∀ op ∈ creates, ∃ apiKeyId input id id' now,
      op = .createSuppression apiKeyId input id id' now) →
    ∀ target, ∀ r ∈ (run (step toLowerCase) (run (step toLowerCase) db as) creates).suppressions.rows,
      sharedHardSuppressionWhere target r = true →
        r ∈ (run (step toLowerCase) db as).suppressions.rows

/-- **The shared gate.** Along every run of events, hard deletions, manual additions and deletes
the gate stays armed up to the two documented limits: the purge of a complaint's source email,
and a permanent complaint that had none. -/
theorem gateArmed (db : Db) (ops : List Op) : GateArmed toLowerCase db ops where
  stays as bs k _ h := by
    rw [← armed_run_iff h]
    refine forall₂_congr fun cs _ => ?_
    rw [run_append]
  complaint as _ input id now p hok hs := by
    have harmed := (armed_addFromComplaint_iff hok).mpr hs
    exact ⟨harmed, hasSharedHardSuppression_of_armed harmed⟩
  manual as _ creates hc target r hr hs := mem_rows_of_creates hc hr hs

end SharedGate

/-! ## The two limits -/

/-- A feedback-loop complaint about `msg_1`. -/
def complaintReport : AddFromComplaintInput := ⟨"key", "a@x.org", "msg_1"⟩

/-- A permanent complaint entered by hand. -/
def manualComplaint : Op := .createSuppression "key" ⟨"a@x.org", .complaint, none⟩ "sup_1" "sup_2" 0

/-- The purge of the complaint's email disarms the row, and a report over a complaint entered by
hand goes through and arms nothing. -/
theorem purge_and_manualComplaint_disarm :
    (∃ db, db = step id oneEmail (.addFromComplaint complaintReport "sup_1" 0) ∧
      db.armed ("key", "a@x.org") = true ∧
      (step id db (.hardDeleteEmails ["msg_1"])).armed ("key", "a@x.org") = false) ∧
    ∃ p, addFromComplaint id (step id oneEmail manualComplaint) complaintReport "sup_3" 1000 = .ok p ∧
      hasSharedHardSuppression p.1.suppressions "a@x.org" = false :=
  ⟨⟨_, rfl, by decide, by decide⟩, _, rfl, by decide⟩

end BunMail.SuppressionList
