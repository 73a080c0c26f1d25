import BunMail.Suppressions.Suppression
import Mathlib.Order.WithBot

/-!
# Automatic suppressions and the protection on file

The address of a row is suppressed until the row's `expires_at`, for good when that is null.  A
bounce, an unsubscribe and a complaint guard the row they conflict with, but a bounce with an
expiry of its own rewrites a temporary row whatever that row's expiry is.  So a run keeps the
protection exactly when no such bounce meets a temporary row that lasts longer.
-/

namespace BunMail.SuppressionList

open Run

/-- The instant until which the row suppresses its address. -/
def Suppression.until (r : Suppression) : WithTop Time :=
  match r.expiresAt with
  | none => ⊤
  | some at_ => (at_ : WithTop Time)

/-- The instant until which an address is suppressed under a key; `⊥` without a row. -/
def Db.suppressedUntil (db : Db) (k : Text × Text) : WithBot (WithTop Time) :=
  match db.findRow k with
  | none => ⊥
  | some r => (r.until : WithBot (WithTop Time))

/-- A complaint with no expiry. -/
def Suppression.permanentComplaint (r : Suppression) : Prop :=
  r.reason = .complaint ∧ r.expiresAt = none

section Precedence

variable {toLowerCase : Text → Text} {db : Db} {op : Op} {u : Upsert} {k : Text × Text}
  {r : Suppression}

/-! ## Guards -/

/-- Every statement leaves a permanent complaint alone. -/
theorem setWhere_permanentComplaint (hu : op.upsert? toLowerCase = some u)
    (hr : r.permanentComplaint) : u.setWhere r = false := by
  obtain ⟨hreason, hexp⟩ := hr
  cases op <;> cases hu <;>
    simp [addFromBounceUpsert, addFromUnsubscribeUpsert, addFromComplaintUpsert,
      createSuppressionUpsert, hreason, hexp]

/-- An automatic statement that rewrites a permanent row makes it permanent again. -/
theorem set_expiresAt_of_permanent (ha : op.automatic) (hu : op.upsert? toLowerCase = some u)
    (hr : r.expiresAt = none) (hw : u.setWhere r = true) : (u.set r).expiresAt = none := by
  cases op with
  | addFromBounce apiKeyId input id now =>
    cases hu
    simp [addFromBounceUpsert, hr] at hw
  | addFromUnsubscribe input id now => cases hu; rfl
  | addFromComplaint input id now => cases hu; rfl
  | createSuppression | deleteSuppression | deleteSuppressionByIdUnscoped | hardDeleteEmails =>
    cases ha

variable (toLowerCase) in
theorem exists_upsert_of_automatic (ha : op.automatic) : ∃ u, op.upsert? toLowerCase = some u := by
  cases op <;> first | exact ⟨_, rfl⟩ | cases ha

theorem findRow_step_complaint (hu : op.upsert? toLowerCase = some u) (hf : db.findRow k = some r)
    (hr : r.permanentComplaint) : (step toLowerCase db op).findRow k = some r := by
  rcases findRow_step db hu k with h | ⟨_, ⟨hn, _⟩ | ⟨r', hf', hw, _, _⟩⟩
  · exact h.trans hf
  · rw [hf] at hn; cases hn
  · cases hf.symm.trans hf'
    rw [setWhere_permanentComplaint hu hr] at hw
    cases hw

theorem findRow_step_permanent (ha : op.automatic) (hf : db.findRow k = some r)
    (hr : r.expiresAt = none) :
    ∃ r', (step toLowerCase db op).findRow k = some r' ∧ r'.expiresAt = none := by
  obtain ⟨u, hu⟩ := exists_upsert_of_automatic toLowerCase ha
  rcases findRow_step db hu k with h | ⟨_, ⟨hn, _⟩ | ⟨r', hf', hw, _, h⟩⟩
  · exact ⟨r, h.trans hf, hr⟩
  · rw [hf] at hn; cases hn
  · cases hf.symm.trans hf'
    exact ⟨_, h, set_expiresAt_of_permanent ha hu hr hw⟩

/-! ## One step -/

theorem suppressedUntil_of_findRow (hf : db.findRow k = some r) :
    db.suppressedUntil k = (r.until : WithBot (WithTop Time)) := by
  unfold Db.suppressedUntil
  rw [hf]

theorem suppressedUntil_congr {db' : Db} (h : db'.findRow k = db.findRow k) :
    db'.suppressedUntil k = db.suppressedUntil k := by
  unfold Db.suppressedUntil
  rw [h]

theorem until_of_permanent (h : r.expiresAt = none) : r.until = ⊤ := by
  unfold Suppression.until
  rw [h]

theorem until_of_expiresAt {at_ : Time} (h : r.expiresAt = some at_) : r.until = (at_ : WithTop Time) := by
  unfold Suppression.until
  rw [h]

variable (toLowerCase) in
/-- The condition on a step: a bounce with an expiry, filed for the key's address and naming an
email that exists, meets no temporary row that lasts longer. -/
def KeepsWindow (k : Text × Text) (db : Db) : Op → Prop
  | .addFromBounce apiKeyId input _ _ =>
    (apiKeyId, normaliseEmail toLowerCase input.email) = k →
      input.sourceEmailId.all (· ∈ db.emails) = true →
        ∀ e ∈ input.expiresAt, ∀ r ∈ db.findRow k, ∀ x ∈ r.expiresAt, x ≤ e
  | _ => True

/-- A rewrite under the condition ends no earlier than the row it rewrites. -/
theorem until_le_set (ha : op.automatic) (hu : op.upsert? toLowerCase = some u)
    (hk : u.row.key = k) (hf : db.findRow k = some r) (hw : u.setWhere r = true)
    (href : db.references (u.set r) = true) (hc : KeepsWindow toLowerCase k db op) :
    r.until ≤ (u.set r).until := by
  cases op with
  | addFromBounce apiKeyId input id now =>
    cases hu
    cases hi : input.expiresAt with
    | none => rw [until_of_permanent (r := (addFromBounceUpsert _ _ _ _ _).set r) hi]; exact le_top
    | some e =>
      rw [until_of_expiresAt (r := (addFromBounceUpsert _ _ _ _ _).set r) hi]
      obtain ⟨x, hx⟩ := Option.isSome_iff_exists.mp hw
      rw [until_of_expiresAt hx]
      exact WithTop.coe_le_coe.mpr (hc hk href e hi r hf x hx)
  | addFromUnsubscribe input id now => cases hu; exact le_top
  | addFromComplaint input id now => cases hu; exact le_top
  | createSuppression | deleteSuppression | deleteSuppressionByIdUnscoped | hardDeleteEmails =>
    cases ha

/-- An automatic step moves the instant back exactly when it breaks the condition. -/
theorem suppressedUntil_le_step_iff (ha : op.automatic) :
    db.suppressedUntil k ≤ (step toLowerCase db op).suppressedUntil k ↔
      KeepsWindow toLowerCase k db op := by
  constructor
  · intro hle
    cases op with
    | addFromBounce apiKeyId input id now =>
      intro hk href e he r hf x hx
      subst hk
      -- the bounce rewrites the temporary row, so the instant afterwards is its own expiry
      have hset : ((addFromBounceUpsert toLowerCase apiKeyId input id now).setWhere r &&
          db.references ((addFromBounceUpsert toLowerCase apiKeyId input id now).set r)) = true :=
        Bool.and_eq_true_iff.mpr ⟨Option.isSome_iff_exists.mpr ⟨x, hx⟩, href⟩
      have hrow := findRow_afterUpsert_some
        (u := addFromBounceUpsert toLowerCase apiKeyId input id now) hf
      rw [if_pos hset, ← step_upsert db (show Op.upsert? toLowerCase
        (.addFromBounce apiKeyId input id now) = some _ from rfl)] at hrow
      change (step toLowerCase db (.addFromBounce apiKeyId input id now)).findRow
        (apiKeyId, normaliseEmail toLowerCase input.email) = _ at hrow
      rw [suppressedUntil_of_findRow hf, suppressedUntil_of_findRow hrow, until_of_expiresAt hx,
        until_of_expiresAt (r := (addFromBounceUpsert _ _ _ _ _).set r) he] at hle
      exact WithTop.coe_le_coe.mp (WithBot.coe_le_coe.mp hle)
    | addFromUnsubscribe | addFromComplaint => trivial
    | createSuppression | deleteSuppression | deleteSuppressionByIdUnscoped | hardDeleteEmails =>
      cases ha
  · intro hc
    obtain ⟨u, hu⟩ := exists_upsert_of_automatic toLowerCase ha
    rcases findRow_step db hu k with h | ⟨_, ⟨hn, _⟩ | ⟨r, hf, hw, href, h⟩⟩
    · exact (suppressedUntil_congr h).ge
    · unfold Db.suppressedUntil
      rw [hn]
      exact bot_le
    · rw [suppressedUntil_of_findRow hf, suppressedUntil_of_findRow h]
      exact WithBot.coe_le_coe.mpr (until_le_set ha hu ‹_› hf hw href hc)

/-! ## Runs -/

variable (toLowerCase) in
/-- What the automatic operations promise about a key and address over a run: at most one row,
an instant that never moves back, permanent rows that stay permanent, and a permanent complaint
that no statement changes. -/
structure NeverWeakens (k : Text × Text) (db : Db) (ops : List Op) : Prop where
  one_row : ∀ as, as <+: ops →
    ((run (step toLowerCase) db as).suppressions.rows.filter (·.key = k)).length ≤ 1
  until_le : ∀ as bs, as ++ bs <+: ops →
    (run (step toLowerCase) db as).suppressedUntil k ≤
      (run (step toLowerCase) db (as ++ bs)).suppressedUntil k
  permanent : ∀ as bs, as ++ bs <+: ops → ∀ r,
    (run (step toLowerCase) db as).findRow k = some r → r.expiresAt = none →
      ∃ r', (run (step toLowerCase) db (as ++ bs)).findRow k = some r' ∧ r'.expiresAt = none
  complaint : ∀ as, as <+: ops → ∀ r,
    (run (step toLowerCase) db as).findRow k = some r → r.permanentComplaint →
      ∀ writes : List Op, (∀ op ∈ writes, (op.upsert? toLowerCase).isSome) →
        (run (step toLowerCase) (run (step toLowerCase) db as) writes).findRow k = some r

/-- The unique index, on the rows of one key. -/
theorem length_filter_key_le_one (t : Suppressions) (k : Text × Text) :
    (t.rows.filter (·.key = k)).length ≤ 1 := by
  have hn : (t.rows.filter (·.key = k)).map Suppression.key |>.Nodup :=
    (List.filter_sublist.map _).nodup t.unique
  have hk : (t.rows.filter (·.key = k)).map Suppression.key =
      List.replicate (t.rows.filter (·.key = k)).length k := by
    rw [List.eq_replicate_iff]
    refine ⟨List.length_map _, fun x hx => ?_⟩
    obtain ⟨r, hr, rfl⟩ := List.mem_map.mp hx
    simpa using (List.mem_filter.mp hr).2
  rw [hk, List.nodup_replicate] at hn
  exact hn

theorem findRow_run_complaint {writes : List Op}
    (hw : ∀ op ∈ writes, (op.upsert? toLowerCase).isSome) (hf : db.findRow k = some r)
    (hr : r.permanentComplaint) : (run (step toLowerCase) db writes).findRow k = some r := by
  induction writes generalizing db with
  | nil => exact hf
  | cons op ops ih =>
    obtain ⟨u, hu⟩ := Option.isSome_iff_exists.mp (hw op List.mem_cons_self)
    exact ih (fun o ho => hw o (List.mem_cons_of_mem _ ho)) (findRow_step_complaint hu hf hr)

theorem findRow_run_permanent {ops : List Op} (ha : ∀ op ∈ ops, op.automatic)
    (hf : db.findRow k = some r) (hr : r.expiresAt = none) :
    ∃ r', (run (step toLowerCase) db ops).findRow k = some r' ∧ r'.expiresAt = none := by
  induction ops generalizing db r with
  | nil => exact ⟨r, hf, hr⟩
  | cons op ops ih =>
    obtain ⟨r', hf', hr'⟩ := findRow_step_permanent (ha op List.mem_cons_self) hf hr
    exact ih (fun o ho => ha o (List.mem_cons_of_mem _ ho)) hf' hr'

theorem suppressedUntil_le_run {ops : List Op} (ha : ∀ op ∈ ops, op.automatic)
    (hc : Along (step toLowerCase) (KeepsWindow toLowerCase k) db ops) :
    db.suppressedUntil k ≤ (run (step toLowerCase) db ops).suppressedUntil k := by
  induction ops generalizing db with
  | nil => exact le_rfl
  | cons op ops ih =>
    have hop := ha op List.mem_cons_self
    exact ((suppressedUntil_le_step_iff hop).mpr hc.1).trans
      (ih (fun o ho => ha o (List.mem_cons_of_mem _ ho)) hc.2)

/-- **Precedence.** A run of automatic operations never weakens the protection of a key and
address exactly when each bounce with an expiry meets no temporary row that lasts longer. -/
theorem neverWeakens_iff (db : Db) (k : Text × Text) (ops : List Op)
    (ha : ∀ op ∈ ops, op.automatic) :
    NeverWeakens toLowerCase k db ops ↔
      Along (step toLowerCase) (KeepsWindow toLowerCase k) db ops := by
  constructor
  · intro h
    rw [along_iff_forall_concat]
    intro as op hp
    have hop : op.automatic := ha op (hp.subset (List.mem_append_right _ (List.mem_singleton_self _)))
    rw [← suppressedUntil_le_step_iff hop, ← run_concat (step toLowerCase)]
    exact h.until_le as [op] hp
  · intro hc
    have split : ∀ as bs, as ++ bs <+: ops → (∀ op ∈ bs, op.automatic) ∧
        Along (step toLowerCase) (KeepsWindow toLowerCase k) (run (step toLowerCase) db as) bs := by
      rintro as bs ⟨cs, rfl⟩
      rw [List.append_assoc, along_append] at hc
      exact ⟨fun o ho => ha o (by simp [ho]), (along_append.mp hc.2).1⟩
    refine ⟨fun as _ => length_filter_key_le_one _ k, ?_, ?_, ?_⟩
    · intro as bs hp
      rw [run_append]
      exact suppressedUntil_le_run (split as bs hp).1 (split as bs hp).2
    · intro as bs hp r hf hr
      rw [run_append]
      exact findRow_run_permanent (split as bs hp).1 hf hr
    · intro as _ r hf hr writes hw
      exact findRow_run_complaint hw hf hr

end Precedence

/-! ## A manual entry shortened by a soft bounce -/

/-- A list with no row and one email. -/
def oneEmail : Db := ⟨["msg_1"], Table.empty⟩

/-- A manual entry for a year, made at the epoch. -/
def manualForAYear : Op :=
  .createSuppression "key" ⟨"a@x.org", .manual, some 31536000000⟩ "sup_1" "sup_2" 0

/-- A soft bounce a second later. -/
def softBounce : Op :=
  .addFromBounce "key" ⟨"a@x.org", .soft, some "4.2.2", some "msg_1", some (1000 + SOFT_BOUNCE_WINDOW_MS)⟩
    "sup_3" 1000

/-- The soft bounce rewrites the manual entry of a year into one of a day. -/
theorem softBounce_shortens_manual :
    ¬ NeverWeakens id ("key", "a@x.org") (step id oneEmail manualForAYear) [softBounce] := by
  intro h
  have hle := h.until_le [] [softBounce] (List.prefix_refl _)
  revert hle
  decide

/-- A hard bounce, an unsubscribe and a complaint on one address, after a soft bounce. -/
theorem neverWeakens_after_softBounce :
    NeverWeakens id ("key", "a@x.org") (step id oneEmail softBounce)
      [.addFromBounce "key" ⟨"a@x.org", .hard, some "5.1.1", some "msg_1", none⟩ "sup_4" 2000,
        .addFromUnsubscribe ⟨"key", "a@x.org", "msg_1"⟩ "sup_5" 3000,
        .addFromComplaint ⟨"key", "a@x.org", "msg_1"⟩ "sup_6" 4000] :=
  (neverWeakens_iff _ _ _ (by decide)).mpr
    ⟨fun _ _ _ he => (by cases he), trivial, trivial, trivial⟩

end BunMail.SuppressionList
