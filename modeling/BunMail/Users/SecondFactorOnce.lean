import BunMail.Lib.Run
import BunMail.Users.SecondFactor

/-!
# Second factors are single use

Whatever the interleaving: the steps accepted for a credential increase, a recovery code is accepted
once, nothing is accepted of what was removed or replaced, and the account has one credential at most.

What a write needs is a fact about the rows it has rights to, so it lasts until its commit
(`Transactions.Sound`).  What one write keeps is `Inv`, which ties the rows to the log.
-/

namespace BunMail.Users.SecondFactor

open CodeUnits Base32 Totp Transactions

/-! ## What the writes read and change -/

/-- The columns of a credential. -/
def credentialAt (db : Db) (id : Text) : Option (Option Text × Option ℕ) :=
  (db.credentials.find? id).map fun r => (r.secretHash, r.counter)

/-- The columns of a recovery code. -/
def codeAt (db : Db) (codeHash : Text) : Option (Text × Option Time) :=
  (db.codes.find? codeHash).map fun r => (r.credentialId, r.usedAt)

/-- What a write makes of a credential. -/
def Write.onCredential (id : Text) : Write → Option (Option Text × Option ℕ) → Option (Option Text × Option ℕ)
  | .setCounter id' step _, r => if id = id' then r.map fun r => (r.1, some step) else r
  | .removeCredentials ids _, r => if id ∈ ids then none else r
  | .insertCredential id' step attempt, r => if id = id' then some (some attempt.secretHash, some step) else r
  | .session _, r | .setDisabled _, r | .useCode _ _, r | .deleteCodes _ _, r | .insertCodes _ _, r => r

/-- What a write makes of a recovery code. -/
def Write.onCode (codeHash : Text) : Write → Option (Text × Option Time) → Option (Text × Option Time)
  | .useCode codeHash' at', r => if codeHash = codeHash' then r.map fun r => (r.1, some at') else r
  | .removeCredentials _ codeHashes, r | .deleteCodes _ codeHashes, r =>
    if codeHash ∈ codeHashes then none else r
  | .insertCodes credentialId codeHashes, r => if codeHash ∈ codeHashes then some (credentialId, none) else r
  | .session _, r | .setDisabled _, r | .setCounter _ _ _, r | .insertCredential _ _ _, r => r

theorem credentialAt_insertCodes (credentialId : Text) (codeHashes : List Text) (db : Db) (id : Text) :
    credentialAt (codeHashes.foldl (Db.insertCode credentialId) db) id = credentialAt db id := by
  induction codeHashes generalizing db with
  | nil => rfl
  | cons h codeHashes ih => exact ih (db.insertCode credentialId h)

theorem codeAt_insertCode (credentialId h : Text) (db : Db) (codeHash : Text) :
    codeAt (db.insertCode credentialId h) codeHash =
      if codeHash = h then some (credentialId, none) else codeAt db codeHash := by
  unfold codeAt Db.insertCode
  dsimp only
  split_ifs with heq
  · subst heq
    rw [Table.find?_upsert_self]
    cases db.codes.find? codeHash <;> rfl
  · rw [Table.find?_upsert_ne _ heq]

theorem codeAt_insertCodes (credentialId : Text) (codeHashes : List Text) (db : Db) (codeHash : Text) :
    codeAt (codeHashes.foldl (Db.insertCode credentialId) db) codeHash =
      if codeHash ∈ codeHashes then some (credentialId, none) else codeAt db codeHash := by
  induction codeHashes generalizing db with
  | nil => simp
  | cons h codeHashes ih =>
    rw [List.foldl_cons, ih, codeAt_insertCode]
    by_cases heq : codeHash = h
    · simp [heq]
    · simp [heq]

theorem credentialAt_apply (w : Write) (db : Db) (id : Text) :
    credentialAt (w.apply db) id = w.onCredential id (credentialAt db id) := by
  cases w with
  | session w => rfl
  | setDisabled disabled => rfl
  | useCode codeHash at' => rfl
  | deleteCodes credentialId codeHashes => rfl
  | insertCodes credentialId codeHashes => exact credentialAt_insertCodes credentialId codeHashes db id
  | setCounter credentialId step attempt =>
    unfold credentialAt Write.apply Write.onCredential
    dsimp only
    rw [Table.find?_updateAll]
    cases hfind : db.credentials.find? id with
    | none => simp
    | some r =>
      have hid := Table.key_of_find? hfind
      unfold TotpRow.stepped
      by_cases heq : id = credentialId
      · simp [hid, heq]
      · simp [hid, heq]
  | removeCredentials ids codeHashes =>
    unfold credentialAt Write.apply Write.onCredential
    dsimp only
    rw [Table.find?_deleteWhere]
    cases hfind : db.credentials.find? id with
    | none => simp
    | some r =>
      have hid := Table.key_of_find? hfind
      by_cases hmem : id ∈ ids
      · simp [hid, hmem]
      · simp [hid, hmem]
  | insertCredential credentialId step attempt =>
    unfold credentialAt Write.apply Write.onCredential
    dsimp only
    split_ifs with heq
    · subst heq
      rw [Table.find?_upsert_self]
      cases db.credentials.find? id <;> rfl
    · rw [Table.find?_upsert_ne _ heq]

theorem codeAt_apply (w : Write) (db : Db) (codeHash : Text) :
    codeAt (w.apply db) codeHash = w.onCode codeHash (codeAt db codeHash) := by
  cases w with
  | session w => rfl
  | setDisabled disabled => rfl
  | setCounter credentialId step attempt => rfl
  | insertCredential credentialId step attempt => rfl
  | insertCodes credentialId codeHashes => exact codeAt_insertCodes credentialId codeHashes db codeHash
  | useCode codeHash' at' =>
    unfold codeAt Write.apply Write.onCode
    dsimp only
    rw [Table.find?_updateAll]
    cases hfind : db.codes.find? codeHash with
    | none => simp
    | some r =>
      have hhash := Table.key_of_find? hfind
      unfold RecoveryCodeRow.usedFor
      by_cases heq : codeHash = codeHash'
      · simp [hhash, heq]
      · simp [hhash, heq]
  | removeCredentials ids codeHashes =>
    unfold codeAt Write.apply Write.onCode
    dsimp only
    rw [Table.find?_deleteWhere]
    cases hfind : db.codes.find? codeHash with
    | none => simp
    | some r =>
      have hhash := Table.key_of_find? hfind
      by_cases hmem : codeHash ∈ codeHashes
      · simp [hhash, hmem]
      · simp [hhash, hmem]
  | deleteCodes credentialId codeHashes =>
    unfold codeAt Write.apply Write.onCode
    dsimp only
    rw [Table.find?_deleteWhere]
    cases hfind : db.codes.find? codeHash with
    | none => simp
    | some r =>
      have hhash := Table.key_of_find? hfind
      by_cases hmem : codeHash ∈ codeHashes
      · simp [hhash, hmem]
      · simp [hhash, hmem]

/-! ## What the writes need -/

variable (c : Primitives)

/-- The code is that of the step under the secret, and the step is in the window. -/
structure Attempt.Genuine (a : Attempt) (step : ℕ) : Prop where
  code : ∃ key, c.secretKey a.secretHash = some key ∧ totpCode c.hmac key step = compact a.input
  notOld : totpStep a.nowMs ≤ step + TOTP_WINDOW_STEPS
  notAhead : step ≤ totpStep a.nowMs + TOTP_WINDOW_STEPS

/-- The codes of the credential are among these. -/
def Listed (db : Db) (credentialId : Text) (codeHashes : List Text) : Prop :=
  ∀ h usedAt, codeAt db h = some (credentialId, usedAt) → h ∈ codeHashes

/-- What a write needs. -/
def Write.Ok : Write → Db → Prop
  | .session _, _ | .setDisabled _, _ => True
  | .setCounter credentialId step attempt, db =>
    (∃ secretHash counter, credentialAt db credentialId = some (secretHash, counter) ∧
      usable counter step = true) ∧ attempt.Genuine c step
  | .useCode codeHash _, db => ∃ credentialId, codeAt db codeHash = some (credentialId, none)
  | .removeCredentials ids codeHashes, db => ∀ id ∈ ids, Listed db id codeHashes
  | .deleteCodes credentialId codeHashes, db =>
    credentialAt db credentialId ≠ none ∧ Listed db credentialId codeHashes
  | .insertCredential _ step attempt, db => (∀ id, credentialAt db id = none) ∧ attempt.Genuine c step
  | .insertCodes credentialId codeHashes, db =>
    credentialAt db credentialId ≠ none ∧ codeHashes.Nodup ∧ ∀ h ∈ codeHashes, codeAt db h = none

/-- As far as the holder of a row relies on it, `db'` is as `db`. -/
def Agree : RowKey → Db → Db → Prop
  | .user, _, _ | .session _, _, _ => True
  | .credential id, db, db' => credentialAt db id = credentialAt db' id ∧
    ∀ h usedAt, codeAt db' h = some (id, usedAt) → ∃ usedAt', codeAt db h = some (id, usedAt')
  | .code codeHash, db, db' => codeAt db codeHash = codeAt db' codeHash
  | .oneTotp, db, db' => ∀ id, credentialAt db id = none → credentialAt db' id = none

theorem Agree.trans {k : RowKey} {x y z : Db} (hxy : Agree k x y) (hyz : Agree k y z) : Agree k x z := by
  cases k with
  | user => trivial
  | session id => trivial
  | credential id =>
    refine ⟨hxy.1.trans hyz.1, fun h usedAt hz => ?_⟩
    obtain ⟨usedAt', hy⟩ := hyz.2 h usedAt hz
    exact hxy.2 h usedAt' hy
  | code codeHash => exact Eq.trans hxy hyz
  | oneTotp => exact fun id hx => hyz id (hxy id hx)

/-- A write leaves the rows it has no right to. -/
theorem agree_apply {w : Write} {k : RowKey} (db : Db) (hk : k ∉ w.rights) : Agree k db (w.apply db) := by
  cases k with
  | user => trivial
  | session id => trivial
  | credential id =>
    refine ⟨?_, fun h usedAt hcode => ?_⟩
    · rw [credentialAt_apply]
      cases w <;> simp_all [Write.rights, Write.onCredential]
    · rw [codeAt_apply] at hcode
      cases w with
      | session w => exact ⟨usedAt, hcode⟩
      | setDisabled disabled => exact ⟨usedAt, hcode⟩
      | setCounter id' step attempt => exact ⟨usedAt, hcode⟩
      | insertCredential id' step attempt => exact ⟨usedAt, hcode⟩
      | useCode codeHash at' =>
        unfold Write.onCode at hcode
        dsimp only at hcode
        split_ifs at hcode
        · obtain ⟨r, hr, heq⟩ := Option.map_eq_some_iff.mp hcode
          cases heq
          exact ⟨r.2, hr⟩
        · exact ⟨usedAt, hcode⟩
      | removeCredentials ids codeHashes =>
        unfold Write.onCode at hcode
        dsimp only at hcode
        split_ifs at hcode
        exact ⟨usedAt, hcode⟩
      | deleteCodes credentialId codeHashes =>
        unfold Write.onCode at hcode
        dsimp only at hcode
        split_ifs at hcode
        exact ⟨usedAt, hcode⟩
      | insertCodes credentialId codeHashes =>
        unfold Write.onCode at hcode
        dsimp only at hcode
        split_ifs at hcode
        · cases hcode
          exact absurd List.mem_cons_self hk
        · exact ⟨usedAt, hcode⟩
  | code codeHash =>
    unfold Agree
    dsimp only
    rw [codeAt_apply]
    cases w <;> simp_all [Write.rights, Write.onCode]
  | oneTotp =>
    intro id hnone
    rw [credentialAt_apply, hnone]
    cases w <;> simp_all [Write.rights, Write.onCredential]

/-- A write of both keeps their agreement. -/
theorem Agree.apply {k : RowKey} {db db' : Db} (w : Write) (h : Agree k db db') :
    Agree k (w.apply db) (w.apply db') := by
  cases k with
  | user => trivial
  | session id => trivial
  | credential id =>
    refine ⟨by rw [credentialAt_apply, credentialAt_apply, h.1], fun g usedAt hcode => ?_⟩
    rw [codeAt_apply] at hcode ⊢
    cases w with
    | session w => exact h.2 g usedAt hcode
    | setDisabled disabled => exact h.2 g usedAt hcode
    | setCounter id' step attempt => exact h.2 g usedAt hcode
    | insertCredential id' step attempt => exact h.2 g usedAt hcode
    | useCode codeHash at' =>
      unfold Write.onCode at hcode ⊢
      dsimp only at hcode ⊢
      split_ifs at hcode ⊢
      · obtain ⟨r, hr, heq⟩ := Option.map_eq_some_iff.mp hcode
        cases heq
        obtain ⟨usedAt', hr'⟩ := h.2 g r.2 hr
        rw [hr']
        exact ⟨some at', rfl⟩
      · exact h.2 g usedAt hcode
    | removeCredentials ids codeHashes =>
      unfold Write.onCode at hcode ⊢
      dsimp only at hcode ⊢
      split_ifs at hcode ⊢
      exact h.2 g usedAt hcode
    | deleteCodes credentialId codeHashes =>
      unfold Write.onCode at hcode ⊢
      dsimp only at hcode ⊢
      split_ifs at hcode ⊢
      exact h.2 g usedAt hcode
    | insertCodes credentialId codeHashes =>
      unfold Write.onCode at hcode ⊢
      dsimp only at hcode ⊢
      split_ifs at hcode ⊢
      · exact ⟨usedAt, hcode⟩
      · exact h.2 g usedAt hcode
  | code codeHash =>
    unfold Agree at h ⊢
    dsimp only at h ⊢
    rw [codeAt_apply, codeAt_apply, h]
  | oneTotp =>
    intro id hnone
    have hrow := h id
    rw [credentialAt_apply] at hnone ⊢
    unfold Write.onCredential at hnone ⊢
    cases w with
    | setCounter id' step attempt =>
      dsimp only at hnone ⊢
      split_ifs at hnone ⊢
      · rw [Option.map_eq_none_iff] at hnone ⊢
        exact hrow hnone
      · exact hrow hnone
    | removeCredentials ids codeHashes =>
      dsimp only at hnone ⊢
      split_ifs at hnone ⊢
      · rfl
      · exact hrow hnone
    | insertCredential id' step attempt =>
      dsimp only at hnone ⊢
      split_ifs at hnone ⊢
      exact hrow hnone
    | _ => exact hrow hnone

theorem Listed.of_agree {db db' : Db} {id : Text} {codeHashes : List Text} (h : Agree (.credential id) db db')
    (hlisted : Listed db id codeHashes) : Listed db' id codeHashes := by
  intro g usedAt hcode
  obtain ⟨usedAt', hcode'⟩ := h.2 g usedAt hcode
  exact hlisted g usedAt' hcode'

/-- What a write needs is a fact about the rows it has rights to. -/
theorem Write.Ok.of_agree {w : Write} {db db' : Db} (h : ∀ k ∈ w.rights, Agree k db db') (hok : w.Ok c db) :
    w.Ok c db' := by
  cases w with
  | session w => trivial
  | setDisabled disabled => trivial
  | setCounter id step attempt =>
    have hrow := h (.credential id) (by simp [Write.rights])
    obtain ⟨⟨secretHash, counter, hfind, husable⟩, hgenuine⟩ := hok
    exact ⟨⟨secretHash, counter, hrow.1 ▸ hfind, husable⟩, hgenuine⟩
  | useCode codeHash at' =>
    have hrow : codeAt db codeHash = codeAt db' codeHash := h (.code codeHash) (by simp [Write.rights])
    obtain ⟨credentialId, hfind⟩ := hok
    exact ⟨credentialId, hrow ▸ hfind⟩
  | removeCredentials ids codeHashes =>
    exact fun id hid => (hok id hid).of_agree (h (.credential id) (by simp [Write.rights, hid]))
  | deleteCodes id codeHashes =>
    have hrow := h (.credential id) (by simp [Write.rights])
    exact ⟨hrow.1 ▸ hok.1, hok.2.of_agree hrow⟩
  | insertCredential id step attempt =>
    have hrow := h .oneTotp (by simp [Write.rights])
    exact ⟨fun id' => hrow id' (hok.1 id'), hok.2⟩
  | insertCodes id codeHashes =>
    have hrow := h (.credential id) (by simp [Write.rights])
    refine ⟨hrow.1 ▸ hok.1, hok.2.1, fun g hg => ?_⟩
    have hcode : codeAt db g = codeAt db' g := h (.code g) (by simp [Write.rights, hg])
    exact hcode ▸ hok.2.2 g hg

theorem localWrites : LocalWrites Write.apply (Write.Ok c) Write.rights Agree where
  refl := by
    intro k db
    cases k with
    | user => trivial
    | session id => trivial
    | credential id => exact ⟨rfl, fun h usedAt hcode => ⟨usedAt, hcode⟩⟩
    | code codeHash => rfl
    | oneTotp => exact fun id h => h
  trans := Agree.trans
  frame := agree_apply
  congr := Agree.apply
  ok_congr := Write.Ok.of_agree c

/-! ## The rows and the log -/

/-- What was accepted of one credential before is of an earlier step; a recovery code is accepted once;
what was numbered before a removal is not accepted after it, nor a recovery code after a
regeneration. -/
def Respects : Event → Event → Prop
  | .accepted n step _, .accepted n' step' _ => n = n' → step < step'
  | .spent n, .spent n' => n ≠ n'
  | .removed before, .accepted n _ _ | .removed before, .spent n | .regenerated before, .spent n => before ≤ n
  | _, _ => True

def Event.Genuine : Event → Prop
  | .accepted _ step attempt => attempt.Genuine c step
  | _ => True

/-- It is about what is numbered below `issued`. -/
def Event.Below (issued : ℕ) : Event → Prop
  | .accepted n _ _ | .spent n => n < issued
  | .removed before | .regenerated before => before ≤ issued

/-- The credential's counter is past what was accepted, and it is newer than what was removed. -/
def TotpRow.After (r : TotpRow) : Event → Prop
  | .accepted n step _ => n = r.number → ∃ counter, r.counter = some counter ∧ step ≤ counter
  | .removed before => before ≤ r.number
  | _ => True

/-- The recovery code is marked as used if it was accepted, and it is newer than what was taken away. -/
def RecoveryCodeRow.After (r : RecoveryCodeRow) : Event → Prop
  | .spent n => n = r.number → r.usedAt ≠ none
  | .removed before | .regenerated before => before ≤ r.number
  | .accepted .. => True

/-- What the log tells of the rows. -/
structure Inv (db : Db) : Prop where
  one : db.credentials.rows.length ≤ 1
  owned : ∀ r ∈ db.codes.rows, ∃ o ∈ db.credentials.rows, o.id = r.credentialId
  credentialsBelow : ∀ r ∈ db.credentials.rows, r.number < db.issued
  codesBelow : ∀ r ∈ db.codes.rows, r.number < db.issued
  below : ∀ e ∈ db.log, e.Below db.issued
  apart : (db.codes.rows.map (·.number)).Nodup
  credentials : ∀ r ∈ db.credentials.rows, ∀ e ∈ db.log, r.After e
  codes : ∀ r ∈ db.codes.rows, ∀ e ∈ db.log, r.After e
  counted : ∀ r ∈ db.credentials.rows, ∃ step attempt, r.counter = some step ∧
    Event.accepted r.number step attempt ∈ db.log
  used : ∀ r ∈ db.codes.rows, r.usedAt ≠ none → Event.spent r.number ∈ db.log
  ordered : db.log.Pairwise Respects
  genuine : ∀ e ∈ db.log, e.Genuine c

variable {c} {db : Db}

theorem pairwise_concat {log : List Event} {e : Event} (h : log.Pairwise Respects)
    (he : ∀ e' ∈ log, Respects e' e) : (log ++ [e]).Pairwise Respects := by
  rw [List.pairwise_append]
  refine ⟨h, List.pairwise_singleton _ _, fun e' he' e'' he'' => ?_⟩
  rw [List.mem_singleton.mp he'']
  exact he e' he'

theorem forall_mem_concat {log : List Event} {e : Event} {P : Event → Prop} (h : ∀ e ∈ log, P e) (he : P e) :
    ∀ e' ∈ log ++ [e], P e' := by
  intro e' he'
  rcases List.mem_append.mp he' with hold | hnew
  · exact h e' hold
  · rw [List.mem_singleton.mp hnew]
    exact he

theorem Inv.empty {db : Db} (hcredentials : db.credentials.rows = []) (hcodes : db.codes.rows = [])
    (hlog : db.log = []) : Inv c db := by
  constructor <;> simp [hcredentials, hcodes, hlog]

/-- There is one credential at most. -/
theorem Inv.eq_of_mem (h : Inv c db) {r o : TotpRow} (hr : r ∈ db.credentials.rows)
    (ho : o ∈ db.credentials.rows) : r = o := by
  obtain ⟨x, hx⟩ := List.length_eq_one_iff.mp (le_antisymm h.one (List.length_pos_of_mem hr))
  rw [hx, List.mem_singleton] at hr ho
  rw [hr, ho]

theorem Inv.codes_eq_nil (h : Inv c db) (hnone : db.credentials.rows = []) : db.codes.rows = [] := by
  refine List.eq_nil_iff_forall_not_mem.mpr fun r hr => ?_
  obtain ⟨o, ho, -⟩ := h.owned r hr
  rw [hnone] at ho
  cases ho

theorem exists_of_credentialAt {id : Text} (h : credentialAt db id ≠ none) :
    ∃ r ∈ db.credentials.rows, r.id = id ∧ db.credentials.find? id = some r := by
  unfold credentialAt at h
  have hthere : db.credentials.find? id ≠ none := by
    intro hnone
    rw [hnone] at h
    exact h rfl
  obtain ⟨r, hr⟩ := Option.ne_none_iff_exists'.mp hthere
  exact ⟨r, Table.mem_of_find? hr, Table.key_of_find? hr, hr⟩

theorem codeAt_of_mem {r : RecoveryCodeRow} (h : r ∈ db.codes.rows) :
    codeAt db r.codeHash = some (r.credentialId, r.usedAt) := by
  unfold codeAt
  rw [Table.find?_of_mem h]
  rfl

/-! ## What one write keeps -/

theorem Inv.setCounter (h : Inv c db) {id : Text} {step : ℕ} {attempt : Attempt}
    (hok : (Write.setCounter id step attempt).Ok c db) : Inv c ((Write.setCounter id step attempt).apply db) := by
  obtain ⟨⟨secretHash, counter, hat, husable⟩, hgenuine⟩ := hok
  have hthere : credentialAt db id ≠ none := by
    rw [hat]
    exact Option.some_ne_none _
  obtain ⟨r, hr, hid, hfind⟩ := exists_of_credentialAt hthere
  have hcounter : r.counter = counter := by
    unfold credentialAt at hat
    rw [hfind] at hat
    exact congrArg Prod.snd (Option.some.inj hat)
  have hstepped : r.stepped id step = { r with counter := some step } := if_pos hid
  -- a credential is this one
  have hmem : ∀ o ∈ db.credentials.rows.map (TotpRow.stepped id step), o = { r with counter := some step } := by
    intro o ho
    obtain ⟨x, hx, rfl⟩ := List.mem_map.mp ho
    rw [h.eq_of_mem hx hr, hstepped]
  have hlog : ((Write.setCounter id step attempt).apply db).log = db.log ++ [.accepted r.number step attempt] := by
    unfold Write.apply
    dsimp only
    rw [hfind]
    rfl
  have hnewer : ∀ n step' attempt', Event.accepted n step' attempt' ∈ db.log → n = r.number → step' < step := by
    intro n step' attempt' he hn
    obtain ⟨last, hlast, hle⟩ := h.credentials r hr _ he hn
    rw [← hcounter, hlast] at husable
    exact hle.trans_lt (by simpa [usable] using husable)
  constructor
  · exact (List.length_map _).trans_le h.one
  · intro code hcode
    obtain ⟨o, ho, hoid⟩ := h.owned code hcode
    exact ⟨o.stepped id step, List.mem_map_of_mem ho, (TotpRow.stepped_id id step o).trans hoid⟩
  · intro o ho
    rw [hmem o ho]
    exact h.credentialsBelow r hr
  · exact h.codesBelow
  · rw [hlog]
    exact forall_mem_concat h.below (h.credentialsBelow r hr)
  · exact h.apart
  · intro o ho
    rw [hlog, hmem o ho]
    refine forall_mem_concat (fun e he => ?_) fun _ => ⟨step, rfl, le_rfl⟩
    cases e with
    | accepted n step' attempt' => exact fun hn => ⟨step, rfl, (hnewer n step' attempt' he hn).le⟩
    | removed before => exact h.credentials r hr _ he
    | spent n => trivial
    | regenerated before => trivial
  · intro code hcode
    rw [hlog]
    exact forall_mem_concat (h.codes code hcode) trivial
  · intro o ho
    rw [hlog, hmem o ho]
    exact ⟨step, attempt, rfl, List.mem_append_right _ (List.mem_singleton_self _)⟩
  · intro code hcode hused
    rw [hlog]
    exact List.mem_append_left _ (h.used code hcode hused)
  · rw [hlog]
    refine pairwise_concat h.ordered fun e he => ?_
    cases e with
    | accepted n step' attempt' => exact hnewer n step' attempt' he
    | removed before => exact h.credentials r hr _ he
    | spent n => trivial
    | regenerated before => trivial
  · rw [hlog]
    exact forall_mem_concat h.genuine hgenuine

theorem Inv.useCode (h : Inv c db) {codeHash : Text} {at' : Time} (hok : (Write.useCode codeHash at').Ok c db) :
    Inv c ((Write.useCode codeHash at').apply db) := by
  obtain ⟨credentialId, hat⟩ := hok
  obtain ⟨r, hfind, hcolumns⟩ := Option.map_eq_some_iff.mp hat
  obtain ⟨hr, hhash⟩ := Table.find?_eq_some_iff.mp hfind
  have hunused : r.usedAt = none := congrArg Prod.snd hcolumns
  have hlog : ((Write.useCode codeHash at').apply db).log = db.log ++ [.spent r.number] := by
    unfold Write.apply
    dsimp only
    rw [hfind]
    rfl
  have hnumber : ∀ x : RecoveryCodeRow, (x.usedFor codeHash at').number = x.number := by
    intro x
    unfold RecoveryCodeRow.usedFor
    split_ifs <;> rfl
  -- the code was not accepted before
  have hnew : Event.spent r.number ∉ db.log := fun he => h.codes r hr _ he rfl hunused
  constructor
  · exact h.one
  · intro code hcode
    obtain ⟨x, hx, rfl⟩ := List.mem_map.mp hcode
    have hsame : (x.usedFor codeHash at').credentialId = x.credentialId := by
      unfold RecoveryCodeRow.usedFor
      split_ifs <;> rfl
    rw [hsame]
    exact h.owned x hx
  · exact h.credentialsBelow
  · intro code hcode
    obtain ⟨x, hx, rfl⟩ := List.mem_map.mp hcode
    rw [hnumber]
    exact h.codesBelow x hx
  · rw [hlog]
    exact forall_mem_concat h.below (h.codesBelow r hr)
  · have hsame : (db.codes.rows.map (RecoveryCodeRow.usedFor codeHash at')).map (·.number) =
        db.codes.rows.map (·.number) := by
      rw [List.map_map]
      exact List.map_congr_left fun x _ => hnumber x
    show ((db.codes.rows.map _).map _).Nodup
    rw [hsame]
    exact h.apart
  · intro o ho
    rw [hlog]
    exact forall_mem_concat (h.credentials o ho) trivial
  · intro code hcode
    obtain ⟨x, hx, rfl⟩ := List.mem_map.mp hcode
    have hused : x.usedAt ≠ none → (x.usedFor codeHash at').usedAt ≠ none := by
      intro hx
      unfold RecoveryCodeRow.usedFor
      split_ifs
      · exact Option.some_ne_none _
      · exact hx
    rw [hlog]
    refine forall_mem_concat (fun e he => ?_) fun hn => ?_
    · have hafter := h.codes x hx e he
      cases e with
      | spent n => exact fun hn => hused (hafter (hn.trans (hnumber x)))
      | removed before => exact hafter.trans_eq (hnumber x).symm
      | regenerated before => exact hafter.trans_eq (hnumber x).symm
      | accepted n step attempt => trivial
    · have hsame : x = r := List.inj_on_of_nodup_map h.apart hx hr ((hnumber x).symm.trans hn.symm)
      unfold RecoveryCodeRow.usedFor
      rw [hsame, if_pos hhash]
      exact Option.some_ne_none _
  · intro o ho
    obtain ⟨step, attempt, hcounter, hmem⟩ := h.counted o ho
    rw [hlog]
    exact ⟨step, attempt, hcounter, List.mem_append_left _ hmem⟩
  · intro code hcode hused
    obtain ⟨x, hx, rfl⟩ := List.mem_map.mp hcode
    rw [hlog, hnumber]
    by_cases heq : x.codeHash = codeHash
    · have hsame : x = r := Table.eq_of_key_eq hx hr (heq.trans hhash.symm)
      rw [hsame]
      exact List.mem_append_right _ (List.mem_singleton_self _)
    · unfold RecoveryCodeRow.usedFor at hused
      rw [if_neg heq] at hused
      exact List.mem_append_left _ (h.used x hx hused)
  · rw [hlog]
    refine pairwise_concat h.ordered fun e he => ?_
    cases e with
    | spent n =>
      rintro rfl
      exact hnew he
    | removed before => exact h.codes r hr _ he
    | regenerated before => exact h.codes r hr _ he
    | accepted n step attempt => trivial
  · rw [hlog]
    exact forall_mem_concat h.genuine trivial

/-- What is left of the codes is what the credentials left own. -/
theorem Inv.sublist (h : Inv c db) {credentials : Table TotpRow.id} {codes : Table RecoveryCodeRow.codeHash}
    (hcredentials : credentials.rows.Sublist db.credentials.rows) (hcodes : codes.rows.Sublist db.codes.rows)
    (howned : ∀ r ∈ codes.rows, ∃ o ∈ credentials.rows, o.id = r.credentialId) :
    Inv c { db with credentials := credentials, codes := codes } where
  one := hcredentials.length_le.trans h.one
  owned := howned
  credentialsBelow := fun r hr => h.credentialsBelow r (hcredentials.subset hr)
  codesBelow := fun r hr => h.codesBelow r (hcodes.subset hr)
  below := h.below
  apart := (hcodes.map _).nodup h.apart
  credentials := fun r hr => h.credentials r (hcredentials.subset hr)
  codes := fun r hr => h.codes r (hcodes.subset hr)
  counted := fun r hr => h.counted r (hcredentials.subset hr)
  used := fun r hr => h.used r (hcodes.subset hr)
  ordered := h.ordered
  genuine := h.genuine

/-- Where no recovery code is left, a regeneration is noted. -/
theorem Inv.regenerated (h : Inv c db) (hnone : db.codes.rows = []) :
    Inv c { db with log := db.log ++ [.regenerated db.issued] } where
  one := h.one
  owned := h.owned
  credentialsBelow := h.credentialsBelow
  codesBelow := h.codesBelow
  below := forall_mem_concat h.below le_rfl
  apart := h.apart
  credentials := fun r hr => forall_mem_concat (h.credentials r hr) trivial
  codes := by
    intro r hr
    rw [hnone] at hr
    cases hr
  counted := by
    intro r hr
    obtain ⟨step, attempt, hcounter, hmem⟩ := h.counted r hr
    exact ⟨step, attempt, hcounter, List.mem_append_left _ hmem⟩
  used := fun r hr hused => List.mem_append_left _ (h.used r hr hused)
  ordered := pairwise_concat h.ordered fun e _ => by cases e <;> trivial
  genuine := forall_mem_concat h.genuine trivial

/-- Where no credential is left, a removal is noted. -/
theorem Inv.removed (h : Inv c db) (hnone : db.credentials.rows = []) :
    Inv c { db with log := db.log ++ [.removed db.issued] } where
  one := h.one
  owned := h.owned
  credentialsBelow := h.credentialsBelow
  codesBelow := h.codesBelow
  below := forall_mem_concat h.below le_rfl
  apart := h.apart
  credentials := by
    intro r hr
    rw [hnone] at hr
    cases hr
  codes := by
    intro r hr
    rw [h.codes_eq_nil hnone] at hr
    cases hr
  counted := by
    intro r hr
    rw [hnone] at hr
    cases hr
  used := fun r hr hused => List.mem_append_left _ (h.used r hr hused)
  ordered := pairwise_concat h.ordered fun e _ => by cases e <;> trivial
  genuine := forall_mem_concat h.genuine trivial

theorem Inv.removeCredentials (h : Inv c db) {ids codeHashes : List Text}
    (hok : (Write.removeCredentials ids codeHashes).Ok c db) :
    Inv c ((Write.removeCredentials ids codeHashes).apply db) := by
  have hleft : Inv c
      { db with
        credentials := db.credentials.deleteWhere fun r => ids.contains r.id
        codes := db.codes.deleteWhere fun r => codeHashes.contains r.codeHash } := by
    refine h.sublist List.filter_sublist List.filter_sublist fun r hr => ?_
    obtain ⟨hr, hkept⟩ := Table.mem_deleteWhere.mp hr
    obtain ⟨o, ho, hid⟩ := h.owned r hr
    refine ⟨o, Table.mem_deleteWhere.mpr ⟨ho, ?_⟩, hid⟩
    -- the codes of a removed credential are listed
    by_contra hremoved
    rw [Bool.not_eq_false, List.contains_iff_mem] at hremoved
    have hlisted := hok o.id hremoved r.codeHash r.usedAt (hid ▸ codeAt_of_mem hr)
    rw [List.contains_eq_mem, decide_eq_false_iff_not] at hkept
    exact hkept hlisted
  unfold Write.apply
  dsimp only
  split_ifs with hany
  · refine hleft.removed ?_
    obtain ⟨o, ho, hid⟩ := List.any_eq_true.mp hany
    refine List.eq_nil_iff_forall_not_mem.mpr fun r hr => ?_
    obtain ⟨hr, hkept⟩ := Table.mem_deleteWhere.mp hr
    rw [h.eq_of_mem hr ho, hid] at hkept
    cases hkept
  · rw [List.append_nil]
    exact hleft

theorem Inv.deleteCodes (h : Inv c db) {id : Text} {codeHashes : List Text}
    (hok : (Write.deleteCodes id codeHashes).Ok c db) : Inv c ((Write.deleteCodes id codeHashes).apply db) := by
  obtain ⟨o, ho, hid, -⟩ := exists_of_credentialAt hok.1
  have hnone : (db.codes.deleteWhere fun r => codeHashes.contains r.codeHash).rows = [] := by
    refine List.eq_nil_iff_forall_not_mem.mpr fun r hr => ?_
    obtain ⟨hr, hkept⟩ := Table.mem_deleteWhere.mp hr
    obtain ⟨o', ho', hid'⟩ := h.owned r hr
    have hcredential : r.credentialId = id := by rw [← hid', h.eq_of_mem ho' ho, hid]
    have hlisted := hok.2 r.codeHash r.usedAt (hcredential ▸ codeAt_of_mem hr)
    rw [List.contains_eq_mem, decide_eq_false_iff_not] at hkept
    exact hkept hlisted
  have hleft : Inv c { db with codes := db.codes.deleteWhere fun r => codeHashes.contains r.codeHash } := by
    refine h.sublist (List.Sublist.refl _) List.filter_sublist fun r hr => ?_
    rw [hnone] at hr
    cases hr
  exact hleft.regenerated hnone

theorem rows_eq_nil_of_credentialAt (h : ∀ id, credentialAt db id = none) : db.credentials.rows = [] := by
  refine List.eq_nil_iff_forall_not_mem.mpr fun r hr => ?_
  have hnone := h r.id
  unfold credentialAt at hnone
  rw [Table.find?_of_mem hr] at hnone
  cases hnone

theorem Inv.insertCredential (h : Inv c db) {id : Text} {step : ℕ} {attempt : Attempt}
    (hok : (Write.insertCredential id step attempt).Ok c db) :
    Inv c ((Write.insertCredential id step attempt).apply db) := by
  have hnone := rows_eq_nil_of_credentialAt hok.1
  have hcodes := h.codes_eq_nil hnone
  have hrows : ((Write.insertCredential id step attempt).apply db).credentials.rows =
      [⟨id, some attempt.secretHash, some step, db.issued⟩] := by
    have hnew : id ∉ db.credentials.rows.map TotpRow.id := by
      rw [hnone]
      exact List.not_mem_nil
    unfold Write.apply
    rw [Table.upsert_rows, Table.upsertRows_of_notMem hnew, hnone]
    rfl
  constructor
  · rw [hrows]
    exact le_rfl
  · intro r hr
    have hr' : r ∈ db.codes.rows := hr
    rw [hcodes] at hr'
    cases hr'
  · intro r hr
    rw [hrows, List.mem_singleton] at hr
    rw [hr]
    exact Nat.lt_succ_self _
  · exact fun r hr => (h.codesBelow r hr).trans (Nat.lt_succ_self _)
  · refine forall_mem_concat (fun e he => ?_) (Nat.lt_succ_self _)
    have hbelow := h.below e he
    cases e with
    | accepted n step' attempt' => exact hbelow.trans (Nat.lt_succ_self _)
    | spent n => exact hbelow.trans (Nat.lt_succ_self _)
    | removed before => exact hbelow.trans (Nat.le_succ _)
    | regenerated before => exact hbelow.trans (Nat.le_succ _)
  · exact h.apart
  · intro r hr
    rw [hrows, List.mem_singleton] at hr
    rw [hr]
    refine forall_mem_concat (fun e he => ?_) fun _ => ⟨step, rfl, le_rfl⟩
    have hbelow := h.below e he
    cases e with
    | accepted n step' attempt' => exact fun hn => absurd hn hbelow.ne
    | removed before => exact hbelow
    | spent n => trivial
    | regenerated before => trivial
  · intro r hr
    have hr' : r ∈ db.codes.rows := hr
    rw [hcodes] at hr'
    cases hr'
  · intro r hr
    rw [hrows, List.mem_singleton] at hr
    rw [hr]
    exact ⟨step, attempt, rfl, List.mem_append_right _ (List.mem_singleton_self _)⟩
  · exact fun r hr hused => List.mem_append_left _ (h.used r hr hused)
  · refine pairwise_concat h.ordered fun e he => ?_
    have hbelow := h.below e he
    cases e with
    | accepted n step' attempt' => exact fun hn => absurd hn hbelow.ne
    | removed before => exact hbelow
    | spent n => trivial
    | regenerated before => trivial
  · exact forall_mem_concat h.genuine hok.2

theorem Inv.insertCode (h : Inv c db) {id codeHash : Text} (howner : credentialAt db id ≠ none)
    (hnew : codeAt db codeHash = none) : Inv c (db.insertCode id codeHash) := by
  obtain ⟨o, ho, hid, -⟩ := exists_of_credentialAt howner
  have hrows : (db.insertCode id codeHash).codes.rows = db.codes.rows ++ [⟨codeHash, id, none, db.issued⟩] := by
    have hkey : codeHash ∉ db.codes.keys :=
      Table.find?_eq_none_iff.mp (Option.map_eq_none_iff.mp hnew)
    unfold Db.insertCode
    rw [Table.upsert_rows]
    exact Table.upsertRows_of_notMem hkey
  have hrow : ∀ {P : RecoveryCodeRow → Prop}, (∀ r ∈ db.codes.rows, P r) → P ⟨codeHash, id, none, db.issued⟩ →
      ∀ r ∈ (db.insertCode id codeHash).codes.rows, P r := by
    intro P hold hlast r hr
    rw [hrows] at hr
    rcases List.mem_append.mp hr with hr | hr
    · exact hold r hr
    · rw [List.mem_singleton.mp hr]
      exact hlast
  have hgrows : ∀ e ∈ db.log, e.Below (db.issued + 1) := by
    intro e he
    have hbelow := h.below e he
    cases e with
    | accepted n step attempt => exact hbelow.trans (Nat.lt_succ_self _)
    | spent n => exact hbelow.trans (Nat.lt_succ_self _)
    | removed before => exact hbelow.trans (Nat.le_succ _)
    | regenerated before => exact hbelow.trans (Nat.le_succ _)
  constructor
  · exact h.one
  · exact hrow h.owned ⟨o, ho, hid⟩
  · exact fun r hr => (h.credentialsBelow r hr).trans (Nat.lt_succ_self _)
  · exact hrow (fun r hr => (h.codesBelow r hr).trans (Nat.lt_succ_self _)) (Nat.lt_succ_self _)
  · exact hgrows
  · rw [hrows, List.map_append, List.nodup_append]
    refine ⟨h.apart, List.nodup_singleton _, fun n hn m hm => ?_⟩
    obtain ⟨r, hr, rfl⟩ := List.mem_map.mp hn
    rw [List.map_singleton, List.mem_singleton] at hm
    rw [hm]
    exact (h.codesBelow r hr).ne
  · exact h.credentials
  · refine hrow h.codes fun e he => ?_
    have hbelow := h.below e he
    cases e with
    | spent n => exact fun hn => absurd hn hbelow.ne
    | removed before => exact hbelow
    | regenerated before => exact hbelow
    | accepted n step attempt => trivial
  · exact h.counted
  · exact hrow h.used fun hused => absurd rfl hused
  · exact h.ordered
  · exact h.genuine

theorem Inv.insertCodes (h : Inv c db) {id : Text} {codeHashes : List Text}
    (hok : (Write.insertCodes id codeHashes).Ok c db) : Inv c ((Write.insertCodes id codeHashes).apply db) := by
  obtain ⟨howner, hnodup, hnew⟩ := hok
  unfold Write.apply
  dsimp only
  induction codeHashes generalizing db with
  | nil => exact h
  | cons codeHash codeHashes ih =>
    obtain ⟨hnot, hnodup⟩ := List.nodup_cons.mp hnodup
    refine ih (h.insertCode howner (hnew codeHash List.mem_cons_self)) howner hnodup fun g hg => ?_
    have hne : g ≠ codeHash := fun heq => hnot (heq ▸ hg)
    rw [codeAt_insertCode, if_neg hne]
    exact hnew g (List.mem_cons_of_mem _ hg)

/-- **What one write keeps.** -/
theorem Inv.apply (w : Write) (db : Db) (h : Inv c db) (hok : w.Ok c db) : Inv c (w.apply db) := by
  cases w with
  | session w => exact ⟨h.1, h.2, h.3, h.4, h.5, h.6, h.7, h.8, h.9, h.10, h.11, h.12⟩
  | setDisabled disabled => exact ⟨h.1, h.2, h.3, h.4, h.5, h.6, h.7, h.8, h.9, h.10, h.11, h.12⟩
  | setCounter id step attempt => exact h.setCounter hok
  | useCode codeHash at' => exact h.useCode hok
  | removeCredentials ids codeHashes => exact h.removeCredentials hok
  | deleteCodes id codeHashes => exact h.deleteCodes hok
  | insertCredential id step attempt => exact h.insertCredential hok
  | insertCodes id codeHashes => exact h.insertCodes hok

/-! ## What one statement keeps -/

/-- It leaves the second factors and the log. -/
def Write.Quiet : Write → Prop
  | .session _ | .setDisabled _ => True
  | _ => False

variable (c) in
/-- What a draft has done by the point it stands at. -/
def Shaped (p : FactorDraft) : Prop :=
  match p.point with
  | .authorizing _ | .opening .. | .matching .. | .read .. | .confirming .. => p.written = []
  | .spending sub .. => p.written = [] ∧ sub.caller.allowRecovery = true
  | .counting sub .. => sub.caller.allowRecovery = true
  | .matched sub _ credential _ => sub.caller.allowRecovery = false →
    ∃ step attempt, p.written = [.setCounter credential.id step attempt]
  | .deleting credential _ => (RowKey.credential credential.id, Mode.update) ∈ p.held
  | .purged _ credential _ => ∃ step attempt, Write.setCounter credential.id step attempt ∈ p.written
  | .enrolling call encrypted step => (Attempt.mk encrypted call.input call.nowMs).Genuine c step
  | .inserted call => ∃ step attempt, Write.insertCredential call.credentialId step attempt ∈ p.written
  | .removing ids => ∀ id ∈ ids, (RowKey.credential id, Mode.update) ∈ p.held
  | .finishing answer => answer.changes = false → ∀ w ∈ p.written, w.Quiet
  | .issued _ | .revoked _ | .clearing | .ended _ => True

variable (c) in
/-- Every write lasts, and every draft is in shape. -/
structure Good (s : State) : Prop where
  sound : Sound Write.apply (Write.Ok c) Write.rights (Inv c) s
  shaped : s.Each (Shaped c)

variable {s : State} {t : ℕ} {p : FactorDraft}

theorem Good.ends (h : Good c s) (t : ℕ) (answer : Answer) : Good c (s.leave t (.ended answer)) :=
  ⟨h.sound.leave, h.shaped.put trivial⟩

theorem Good.go (h : Good c s) (hp : s.phase? t = some p) {point : Point}
    (hshape : Shaped c { p with point := point }) : Good c (s.go t p point) :=
  ⟨h.sound.go hp, h.shaped.put hshape⟩

/-- A statement that only takes locks. -/
theorem Good.lock (h : Good c s) (hp : s.phase? t = some p) {point : Point} {locks : List (RowKey × Mode)}
    (hshape : Shaped c ⟨point, p.held ++ locks, p.written ++ []⟩) : Good c (s.write t p point locks []) :=
  ⟨h.sound.write hp (by simp) trivial, h.shaped.enter hshape⟩

theorem Good.write (h : Good c s) (hp : s.phase? t = some p) {point : Point} {locks : List (RowKey × Mode)}
    {w : Write} (hcov : ∀ k ∈ w.rights, ∃ m, (k, m) ∈ p.held ++ locks ∧ m.changes = true)
    (hok : w.Ok c (p.view Write.apply s.db))
    (hshape : Shaped c ⟨point, p.held ++ locks, p.written ++ [w]⟩) : Good c (s.write t p point locks [w]) := by
  refine ⟨h.sound.write hp (fun v hv => ?_) ⟨hok, trivial⟩, h.shaped.enter hshape⟩
  rw [List.mem_singleton.mp hv]
  exact hcov

theorem Good.finish (h : Good c s) (hp : s.phase? t = some p) (answer : Answer) :
    Good c (s.finish Write.apply t p (.ended answer)) :=
  ⟨h.sound.finish (localWrites c) Inv.apply hp, h.shaped.commit trivial⟩

theorem mem_lockAll {f : Text → RowKey} {mode : Mode} {ids : List Text} {id : Text} (h : id ∈ ids) :
    (f id, mode) ∈ lockAll f mode ids := List.mem_map_of_mem h

theorem SessionWrite.covered (w : SessionWrite) :
    ∀ k ∈ (Write.session w).rights, ∃ m, (k, m) ∈ w.locks ∧ m.changes = true := by
  intro k hk
  obtain ⟨id, hid, rfl⟩ := List.mem_map.mp hk
  cases w with
  | createSession row =>
    rw [List.mem_singleton.mp hid]
    exact ⟨.update, List.mem_cons_of_mem _ (List.mem_singleton_self _), rfl⟩
  | deleteSessions ids => exact ⟨.update, mem_lockAll hid, rfl⟩
  | setTotpPendingSecret ids encrypted => exact ⟨.noKeyUpdate, mem_lockAll hid, rfl⟩
  | elevatePendingSession sessionId hash at' =>
    rw [List.mem_singleton.mp hid]
    exact ⟨.update, List.mem_singleton_self _, rfl⟩
  | markSessionMfa sessionId =>
    rw [List.mem_singleton.mp hid]
    exact ⟨.noKeyUpdate, List.mem_singleton_self _, rfl⟩

/-- The rows of a session write are locked with the others. -/
theorem SessionWrite.covered_of {w : SessionWrite} {locks : List (RowKey × Mode)}
    (h : ∀ l ∈ w.locks, l ∈ locks) :
    ∀ k ∈ (Write.session w).rights, ∃ m, (k, m) ∈ locks ∧ m.changes = true := by
  intro k hk
  obtain ⟨m, hm, hc⟩ := w.covered k hk
  exact ⟨m, h _ hm, hc⟩

theorem Good.openTransaction (h : Good c s) (hp : s.phase? t = some p) (hwritten : p.written = [])
    (sub : Submission) (startedAt : Time) : Good c (openTransaction s t p sub startedAt) := by
  unfold SecondFactor.openTransaction
  have hshape : p.written ++ [] = [] := by rw [hwritten, List.append_nil]
  cases sub.caller with
  | completeTwoFactorLogin sessionId presentedHash newHash =>
    dsimp only
    split_ifs
    · exact h.lock hp hshape
    · exact h.ends t _
  | disableTwoFactor => exact h.lock hp hshape
  | regenerateRecoveryCodes random => exact h.go hp hwritten

theorem credentialAt_of_any {id : Text} {step : ℕ}
    (h : (db.credentials.find? id).any (fun r => usable r.counter step) = true) :
    ∃ secretHash counter, credentialAt db id = some (secretHash, counter) ∧ usable counter step = true := by
  obtain ⟨r, hr, husable⟩ := (Option.any_eq_true _ _).mp h
  refine ⟨r.secretHash, r.counter, ?_, husable⟩
  unfold credentialAt
  rw [hr]
  rfl

/-- A step that is found is genuine. -/
theorem genuine_of_match {secretHash : Text} {input : CodeUnits} {nowMs : Time} {lastStep : Option ℕ}
    {step : ℕ} (h : ((c.secretKey secretHash).bind fun key =>
      matchTotpStep c.hmac key input nowMs lastStep) = some (some step)) :
    (Attempt.mk secretHash input nowMs).Genuine c step := by
  obtain ⟨key, hkey, hmatch⟩ := Option.bind_eq_some_iff.mp h
  obtain ⟨hcode, -, hlow, hhigh⟩ := matchTotpStep_eq_some hmatch
  exact ⟨⟨key, hkey, hcode⟩, hlow, hhigh⟩

theorem Good.checkCode (h : Good c s) (hp : s.phase? t = some p) (hwritten : p.written = [])
    (sub : Submission) (startedAt : Time) (credential : TotpRow) (secretHash : Text) :
    Good c (checkCode c s t p sub startedAt credential secretHash) := by
  unfold SecondFactor.checkCode
  dsimp only
  split_ifs with hshape hallowed
  · cases hmatch : (c.secretKey secretHash).bind fun key =>
        matchTotpStep c.hmac key sub.input sub.nowMs credential.counter with
    | none => exact h.ends t _
    | some matched =>
      cases matched with
      | none => exact h.ends t _
      | some step =>
        dsimp only
        split_ifs with hnewer
        · refine h.write hp (fun k hk => ?_) ⟨credentialAt_of_any hnewer, genuine_of_match hmatch⟩ fun _ => ?_
          · rw [List.mem_singleton.mp hk]
            exact ⟨.noKeyUpdate, List.mem_append_right _ (List.mem_singleton_self _), rfl⟩
          · exact ⟨step, _, by rw [hwritten]; rfl⟩
        · exact h.ends t _
  · cases normalizeRecoveryCode c.toUpperCase sub.input with
    | none => exact h.ends t _
    | some normalized =>
      dsimp only
      split
      · exact h.ends t _
      · exact h.go hp ⟨hwritten, hallowed⟩
  · exact h.ends t _

theorem credentialAt_of_contains {id : Text} (h : db.credentials.keys.contains id = true) :
    credentialAt db id ≠ none := by
  rw [List.contains_iff_mem] at h
  obtain ⟨r, hr, rfl⟩ := List.mem_map.mp h
  unfold credentialAt
  rw [Table.find?_of_mem hr]
  exact Option.some_ne_none _

theorem mem_codes_keys {h : Text} {r : Text × Option Time} (hcode : codeAt db h = some r) : h ∈ db.codes.keys := by
  obtain ⟨x, hx, -⟩ := Option.map_eq_some_iff.mp hcode
  exact Table.mem_keys_of_find? hx

theorem Good.useMatch (h : Good c s) (hp : s.phase? t = some p) {sub : Submission} {startedAt : Time}
    {credential : TotpRow} {method : Method}
    (hshape : sub.caller.allowRecovery = false →
      ∃ step attempt, p.written = [.setCounter credential.id step attempt]) :
    Good c (useMatch s t p sub startedAt credential method) := by
  unfold SecondFactor.useMatch
  cases hcaller : sub.caller with
  | completeTwoFactorLogin sessionId presentedHash newHash =>
    dsimp only
    split_ifs
    · refine h.write hp ?_ trivial fun hchanges => ?_
      · exact SessionWrite.covered_of fun l hl => List.mem_append_right _ hl
      · cases hchanges
    · exact h.ends t _
  | disableTwoFactor =>
    dsimp only
    split_ifs
    · exact h.lock hp (List.mem_append_right _ (List.mem_singleton_self _))
    · exact h.go hp fun hchanges => by cases hchanges
  | regenerateRecoveryCodes random =>
    obtain ⟨step, attempt, hwritten⟩ := hshape (by rw [hcaller]; rfl)
    have hmem : Write.setCounter credential.id step attempt ∈ p.written := by
      rw [hwritten]
      exact List.mem_singleton_self _
    refine h.write hp (fun k hk => ?_) ⟨?_, fun g usedAt hcode => mem_codes_keys hcode⟩ ?_
    · rcases List.mem_cons.mp hk with rfl | hk
      · obtain ⟨m, hm, hc⟩ := h.sound.covered t p hp _ hmem (.credential credential.id) (by simp [Write.rights])
        exact ⟨m, List.mem_append_left _ hm, hc⟩
      · obtain ⟨g, hg, rfl⟩ := List.mem_map.mp hk
        exact ⟨.update, List.mem_append_right _ (mem_lockAll hg), rfl⟩
    · -- its counter was just set
      have hlasting : AllOk Write.apply (Write.Ok c) p.written s.db := h.sound.lasting t p hp
      rw [hwritten] at hlasting
      obtain ⟨⟨⟨secretHash, counter, hat, -⟩, -⟩, -⟩ := hlasting
      unfold Draft.view
      rw [hwritten, applyAll_cons, applyAll_nil, credentialAt_apply, hat]
      unfold Write.onCredential
      dsimp only
      rw [if_pos rfl]
      exact Option.some_ne_none _
    · exact ⟨step, attempt, List.mem_append_left _ hmem⟩

theorem Good.checkEnrolment (h : Good c s) (hp : s.phase? t = some p) (hwritten : p.written = [])
    (call : Confirmation) (encrypted : Text) : Good c (checkEnrolment c s t p call encrypted) := by
  unfold SecondFactor.checkEnrolment
  split_ifs
  · refine h.write hp ?_ trivial fun _ w hw => ?_
    · exact SessionWrite.covered_of fun l hl => List.mem_append_right _ hl
    · rw [hwritten, List.nil_append, List.mem_singleton] at hw
      rw [hw]
      trivial
  · cases hmatch : (c.secretKey encrypted).bind fun key =>
        matchTotpStep c.hmac key call.input call.nowMs none with
    | none => exact h.ends t _
    | some matched =>
      cases matched with
      | none => exact h.ends t _
      | some step => exact h.go hp (genuine_of_match hmatch)

theorem insertCodes_ok {id : Text} {codeHashes : List Text} (h : insertable db id codeHashes = true) :
    (Write.insertCodes id codeHashes).Ok c db := by
  unfold insertable at h
  rw [Bool.and_eq_true, Bool.and_eq_true, decide_eq_true_eq, List.all_eq_true] at h
  refine ⟨credentialAt_of_contains h.1.1, h.1.2, fun g hg => ?_⟩
  have hnew := h.2 g hg
  rw [Bool.not_eq_true', List.contains_eq_mem, decide_eq_false_iff_not] at hnew
  unfold codeAt
  rw [Table.find?_eq_none_iff.mpr hnew]
  rfl

/-- `INSERT` of recovery codes for a credential that the draft has written. -/
theorem Good.insertCodes (h : Good c s) (hp : s.phase? t = some p) {point : Point} {id : Text}
    {codeHashes : List Text} (hok : insertable (p.view Write.apply s.db) id codeHashes = true)
    {w : Write} (hw : w ∈ p.written) (hright : RowKey.credential id ∈ w.rights)
    (hshape : Shaped c ⟨point, p.held ++ codeLocks id codeHashes, p.written ++ [.insertCodes id codeHashes]⟩) :
    Good c (s.write t p point (codeLocks id codeHashes) [.insertCodes id codeHashes]) := by
  refine h.write hp (fun k hk => ?_) (insertCodes_ok hok) hshape
  rcases List.mem_cons.mp hk with rfl | hk
  · obtain ⟨m, hm, hc⟩ := h.sound.covered t p hp w hw _ hright
    exact ⟨m, List.mem_append_left _ hm, hc⟩
  · obtain ⟨g, hg, rfl⟩ := List.mem_map.mp hk
    refine ⟨.update, List.mem_append_right _ ?_, rfl⟩
    exact List.mem_cons_of_mem _ (List.mem_cons_of_mem _ (mem_lockAll hg))

/-- The cascade of a `DELETE` whose credentials are locked. -/
theorem Good.cascade (h : Good c s) (hp : s.phase? t = some p) {point : Point} {ids : List Text}
    (hheld : ∀ id ∈ ids, (RowKey.credential id, Mode.update) ∈ p.held)
    (hshape : ∀ held written, Shaped c ⟨point, held, written⟩) :
    Good c (s.write t p point (lockAll .code .update (codesOf (p.view Write.apply s.db) ids))
      [.removeCredentials ids (codesOf (p.view Write.apply s.db) ids)]) := by
  refine h.write hp (fun k hk => ?_) (fun id hid g usedAt hcode => ?_) (hshape _ _)
  · rcases List.mem_append.mp hk with hk | hk
    · obtain ⟨id, hid, rfl⟩ := List.mem_map.mp hk
      exact ⟨.update, List.mem_append_left _ (hheld id hid), rfl⟩
    · obtain ⟨g, hg, rfl⟩ := List.mem_map.mp hk
      exact ⟨.update, List.mem_append_right _ (mem_lockAll hg), rfl⟩
  · obtain ⟨r, hr, hcolumns⟩ := Option.map_eq_some_iff.mp hcode
    obtain ⟨hmem, hhash⟩ := Table.find?_eq_some_iff.mp hr
    refine List.mem_map.mpr ⟨r, List.mem_filter.mpr ⟨hmem, ?_⟩, hhash⟩
    rw [List.contains_iff_mem, show r.credentialId = id from congrArg Prod.fst hcolumns]
    exact hid

variable (c) in
theorem Good.next (h : Good c s) (hp : s.phase? t = some p) (ok : Bool) : Good c (nextStatement c s t ok p) := by
  have hshape := h.shaped t p hp
  obtain ⟨point, held, written⟩ := p
  unfold nextStatement
  cases point with
  | authorizing sub =>
    dsimp only
    split_ifs
    · exact h.go hp hshape
    · exact h.ends t _
  | opening sub startedAt => exact h.openTransaction hp hshape sub startedAt
  | matching sub startedAt =>
    dsimp only
    split_ifs
    · split
      · exact h.ends t _
      · exact h.go hp hshape
    · exact h.ends t _
  | read sub startedAt credential secretHash => exact h.checkCode hp hshape sub startedAt credential secretHash
  | spending sub startedAt credential codeHash number =>
    dsimp only
    split_ifs with hunused
    · refine h.write hp (fun k hk => ?_) ?_ hshape.2
      · rw [List.mem_singleton.mp hk]
        exact ⟨.noKeyUpdate, List.mem_append_right _ (List.mem_singleton_self _), rfl⟩
      · obtain ⟨r, hr, hfree⟩ := (Option.any_eq_true _ _).mp hunused
        rw [Bool.and_eq_true, Option.isNone_iff_eq_none] at hfree
        refine ⟨r.credentialId, ?_⟩
        unfold codeAt
        rw [hr, ← hfree.1]
        rfl
    · exact h.ends t _
  | counting sub startedAt credential =>
    refine h.go hp fun hno => ?_
    rw [show sub.caller.allowRecovery = true from hshape] at hno
    cases hno
  | matched sub startedAt credential method => exact h.useMatch hp hshape
  | deleting credential method =>
    refine h.cascade hp (fun id hid => ?_) fun _ _ hchanges => by cases hchanges
    rw [List.mem_singleton.mp hid]
    exact hshape
  | purged random credential method =>
    dsimp only
    split_ifs with hok
    · obtain ⟨step, attempt, hmem⟩ := hshape
      exact h.insertCodes hp hok hmem (List.mem_singleton_self _) fun hchanges => by cases hchanges
    · exact h.ends t _
  | confirming call encrypted => exact h.checkEnrolment hp hshape call encrypted
  | enrolling call encrypted step =>
    dsimp only
    split_ifs with hnone
    · exact h.ends t _
    · refine h.write hp (fun k hk => ?_) ⟨fun id => ?_, hshape⟩ ?_
      · rcases List.mem_cons.mp hk with rfl | hk
        · exact ⟨.update, List.mem_append_right _ (by simp), rfl⟩
        · rw [List.mem_singleton.mp hk]
          exact ⟨.update, List.mem_append_right _ (by simp), rfl⟩
      · have hrows := List.head?_eq_none_iff.mp (Option.not_isSome_iff_eq_none.mp hnone)
        have hkeys : id ∉ (Draft.view Write.apply ⟨Point.enrolling call encrypted step, held, written⟩
            s.db).credentials.keys := by
          unfold Table.keys
          rw [hrows]
          exact List.not_mem_nil
        unfold credentialAt
        rw [Table.find?_eq_none_iff.mpr hkeys]
        rfl
      · exact ⟨step, _, List.mem_append_right _ (List.mem_singleton_self _)⟩
  | inserted call =>
    dsimp only
    split_ifs with hok
    · obtain ⟨step, attempt, hmem⟩ := hshape
      exact h.insertCodes hp hok hmem List.mem_cons_self trivial
    · exact h.ends t _
  | issued call =>
    refine h.write hp ?_ trivial trivial
    exact SessionWrite.covered_of fun l hl => List.mem_append_right _ hl
  | revoked call =>
    refine h.write hp ?_ trivial fun hchanges => by cases hchanges
    refine SessionWrite.covered_of fun l hl => List.mem_append_right _ ?_
    rw [List.mem_singleton.mp hl]
    exact List.mem_cons_self
  | removing ids => exact h.cascade hp hshape fun _ _ => trivial
  | clearing =>
    refine h.write hp ?_ trivial fun hchanges => by cases hchanges
    exact SessionWrite.covered_of fun l hl => List.mem_append_right _ hl
  | finishing answer => exact h.finish hp answer
  | ended answer => exact h

/-! ## Every run -/

theorem Good.enter (h : Good c s) {point : Point} {locks : List (RowKey × Mode)} {ws : List Write}
    (hcov : ∀ w ∈ ws, ∀ k ∈ w.rights, ∃ m, (k, m) ∈ locks ∧ m.changes = true)
    (hok : AllOk Write.apply (Write.Ok c) ws s.db) (hshape : Shaped c ⟨point, locks, ws⟩) :
    Good c (s.enter Draft.held t ⟨point, locks, ws⟩) :=
  ⟨h.sound.begin hcov hok, h.shaped.enter hshape⟩

theorem Good.start (h : Good c s) (t : ℕ) (call : Call) : Good c (start s t call) := by
  unfold SecondFactor.start
  cases call with
  | submit sub =>
    have hfree : Good c (s.leave t (.authorizing sub)) := ⟨h.sound.leave, h.shaped.put rfl⟩
    dsimp only
    cases sub.caller with
    | disableTwoFactor =>
      dsimp only
      split_ifs
      · exact hfree
      · exact h.ends t _
    | completeTwoFactorLogin sessionId presentedHash newHash => exact hfree
    | regenerateRecoveryCodes random => exact hfree
  | confirmEnrolment call =>
    dsimp only
    cases (s.db.sessions.find? call.sessionId).bind (·.totpPendingSecret) with
    | none => exact h.ends t _
    | some encrypted => exact h.enter (by simp) trivial rfl
  | removeSecondFactors => exact h.enter (by simp) trivial fun id hid => mem_lockAll hid
  | session w =>
    refine h.enter (fun v hv => ?_) ⟨trivial, trivial⟩ fun _ v hv => ?_
    · rw [List.mem_singleton.mp hv]
      exact w.covered
    · rw [List.mem_singleton.mp hv]
      trivial
  | setDisabled disabled =>
    refine h.enter (fun v hv k hk => ?_) ⟨trivial, trivial⟩ fun _ v hv => ?_
    · rw [List.mem_singleton.mp hv] at hk
      rw [List.mem_singleton.mp hk]
      exact ⟨.noKeyUpdate, List.mem_singleton_self _, rfl⟩
    · rw [List.mem_singleton.mp hv]
      trivial

variable (c) in
theorem Good.step (h : Good c s) (a : Action) : Good c (step c s a) := by
  unfold SecondFactor.step
  cases a with
  | start t call =>
    dsimp only
    split_ifs
    · exact h
    · exact h.start t call
  | next t ok =>
    dsimp only
    cases hp : s.phase? t with
    | none => exact h
    | some p => exact h.next c hp ok
  | fail t =>
    dsimp only
    split_ifs
    · exact h.ends t _
    · exact h
  | tick ms =>
    have hinv : Inv c { s.db with now := s.db.now + ms } := by
      have h := h.sound.inv
      exact ⟨h.1, h.2, h.3, h.4, h.5, h.6, h.7, h.8, h.9, h.10, h.11, h.12⟩
    refine ⟨h.sound.shift (localWrites c) (fun k => ?_) hinv, h.shaped⟩
    cases k with
    | user => trivial
    | session id => trivial
    | credential id => exact (localWrites c).refl (.credential id) s.db
    | code codeHash => exact (localWrites c).refl (.code codeHash) s.db
    | oneTotp => exact (localWrites c).refl .oneTotp s.db

variable (c) in
theorem good_run (sessions : Table (fun r : FactorSession => r.id)) (now : Time) (actions : List Action) :
    Good c (Run.run (step c) (init sessions now) actions) := by
  have hinit : Good c (init sessions now) := ⟨Sound.init (Inv.empty rfl rfl rfl), Store.each_init _ _⟩
  exact Run.foldl_invariant (Good c) (fun _ a h => h.step c a) hinit actions

/-! ## What a refusal leaves -/

/-- The second factors and the log are the same. -/
structure SameFactors (db db' : Db) : Prop where
  credentials : db'.credentials = db.credentials
  codes : db'.codes = db.codes
  log : db'.log = db.log

theorem sameFactors_quiet {ws : List Write} (h : ∀ w ∈ ws, w.Quiet) (db : Db) :
    SameFactors db (applyAll Write.apply ws db) := by
  induction ws generalizing db with
  | nil => exact ⟨rfl, rfl, rfl⟩
  | cons w ws ih =>
    have htail := ih (fun v hv => h v (List.mem_cons_of_mem _ hv)) (w.apply db)
    have hquiet := h w List.mem_cons_self
    cases w with
    | session w => exact ⟨htail.credentials, htail.codes, htail.log⟩
    | setDisabled disabled => exact ⟨htail.credentials, htail.codes, htail.log⟩
    | _ => exact hquiet.elim

theorem db_openTransaction (sub : Submission) (startedAt : Time) :
    (openTransaction s t p sub startedAt).db = s.db := by
  unfold openTransaction
  split
  · split_ifs
    · exact Store.db_write ..
    · rfl
  · exact Store.db_write ..
  · rfl

theorem db_checkCode (sub : Submission) (startedAt : Time) (credential : TotpRow) (secretHash : Text) :
    (checkCode c s t p sub startedAt credential secretHash).db = s.db := by
  unfold checkCode
  dsimp only
  split_ifs
  · split
    · rfl
    · rfl
    · split_ifs
      · exact Store.db_write ..
      · rfl
  · split
    · rfl
    · split <;> rfl
  · rfl

theorem db_useMatch (sub : Submission) (startedAt : Time) (credential : TotpRow) (method : Method) :
    (useMatch s t p sub startedAt credential method).db = s.db := by
  unfold useMatch
  dsimp only
  split
  · split_ifs
    · exact Store.db_write ..
    · rfl
  · split_ifs
    · exact Store.db_write ..
    · rfl
  · exact Store.db_write ..

theorem db_checkEnrolment (call : Confirmation) (encrypted : Text) :
    (checkEnrolment c s t p call encrypted).db = s.db := by
  unfold checkEnrolment
  split_ifs
  · exact Store.db_write ..
  · split <;> rfl

/-- Only a commit changes what is committed. -/
theorem db_next (ok : Bool) (h : ∀ answer, p.point ≠ .finishing answer) :
    (nextStatement c s t ok p).db = s.db := by
  obtain ⟨point, held, written⟩ := p
  unfold nextStatement
  cases point with
  | authorizing sub => dsimp only; split_ifs <;> rfl
  | opening sub startedAt => exact db_openTransaction sub startedAt
  | matching sub startedAt =>
    dsimp only
    split_ifs
    · split <;> rfl
    · rfl
  | read sub startedAt credential secretHash => exact db_checkCode sub startedAt credential secretHash
  | spending sub startedAt credential codeHash number =>
    dsimp only
    split_ifs
    · exact Store.db_write ..
    · rfl
  | counting sub startedAt credential => rfl
  | matched sub startedAt credential method => exact db_useMatch sub startedAt credential method
  | purged random credential method =>
    dsimp only
    split_ifs
    · exact Store.db_write ..
    · rfl
  | confirming call encrypted => exact db_checkEnrolment call encrypted
  | enrolling call encrypted step =>
    dsimp only
    split_ifs
    · rfl
    · exact Store.db_write ..
  | inserted call =>
    dsimp only
    split_ifs
    · exact Store.db_write ..
    · rfl
  | deleting credential method => exact Store.db_write ..
  | issued call => exact Store.db_write ..
  | revoked call => exact Store.db_write ..
  | removing ids => exact Store.db_write ..
  | clearing => exact Store.db_write ..
  | finishing answer => exact absurd rfl (h answer)
  | ended answer => rfl

variable (c) in
/-- A call that ends without accepting, enrolling or removing a second factor leaves them all. -/
def RefusalsKeep (s : State) : Prop :=
  ∀ t p ok answer, s.phase? t = some p → p.point.isEnded = false →
    ((step c s (.next t ok)).phase? t).map (·.point) = some (.ended answer) → answer.changes = false →
    SameFactors s.db (step c s (.next t ok)).db

theorem Good.refusalsKeep (h : Good c s) : RefusalsKeep c s := by
  intro t p ok answer hp hopen hend hanswer
  have hstep : SecondFactor.step c s (.next t ok) = nextStatement c s t ok p := by
    unfold SecondFactor.step
    dsimp only
    rw [hp]
    rfl
  rw [hstep] at hend ⊢
  by_cases hcommit : ∃ answer', p.point = .finishing answer'
  · obtain ⟨answer', hpoint⟩ := hcommit
    have hfinish : nextStatement c s t ok p = s.finish Write.apply t p (.ended answer') := by
      unfold nextStatement
      dsimp only
      rw [hpoint]
    have hshape := h.shaped t p hp
    unfold Shaped at hshape
    rw [hpoint] at hshape
    rw [hfinish, Store.finish, Store.phase?_commit, if_pos rfl] at hend
    obtain rfl : answer' = answer := by
      injection hend with hend
      injection hend
    rw [hfinish]
    exact sameFactors_quiet (hshape hanswer) s.db
  · push Not at hcommit
    rw [db_next ok hcommit]
    exact ⟨rfl, rfl, rfl⟩

/-! ## The runs -/

variable (c) in
/-- The second factors of an account, against the log of what was accepted and taken away. -/
structure SingleUse (db : Db) : Prop where
  one : db.credentials.rows.length ≤ 1
  ordered : db.log.Pairwise Respects
  genuine : ∀ e ∈ db.log, e.Genuine c
  counter : ∀ r ∈ db.credentials.rows, ∃ step attempt, r.counter = some step ∧
    Event.accepted r.number step attempt ∈ db.log ∧
    ∀ step' attempt', Event.accepted r.number step' attempt' ∈ db.log → step' ≤ step
  used : ∀ r ∈ db.codes.rows, r.usedAt ≠ none ↔ Event.spent r.number ∈ db.log
  owned : ∀ r ∈ db.codes.rows, ∃ o ∈ db.credentials.rows, o.id = r.credentialId

theorem Inv.singleUse (h : Inv c db) : SingleUse c db where
  one := h.one
  ordered := h.ordered
  genuine := h.genuine
  counter := by
    intro r hr
    obtain ⟨step, attempt, hcounter, hmem⟩ := h.counted r hr
    refine ⟨step, attempt, hcounter, hmem, fun step' attempt' he => ?_⟩
    obtain ⟨last, hlast, hle⟩ := h.credentials r hr _ he rfl
    rw [hcounter] at hlast
    exact hle.trans_eq (Option.some.inj hlast).symm
  used := fun r hr => ⟨h.used r hr, fun he => h.codes r hr _ he rfl⟩
  owned := h.owned

/-- **Second factors are single use.**  In every run the steps accepted for a credential increase, its
enrolment's included, each is the step of its code and within the window; a recovery code is accepted
once; nothing is accepted of what was removed or regenerated before; the account has one credential at
most, whose counter is the last step accepted; and a call that accepts nothing changes no second
factor. -/
theorem second_factors_single_use (c : Primitives) (sessions : Table (fun r : FactorSession => r.id))
    (now : Time) (actions : List Action) :
    SingleUse c (Run.run (step c) (init sessions now) actions).db ∧
      RefusalsKeep c (Run.run (step c) (init sessions now) actions) :=
  ⟨(good_run c sessions now actions).sound.inv.singleUse, (good_run c sessions now actions).refusalsKeep⟩

/-! ## One run -/

/-- The code of a step is its number, and what is stored is the text itself. -/
def plainPrimitives : Primitives where
  hmac := fun _ message => (Vector.replicate 20 0#8).set 3 (message.getLastD 0#8)
  toUpperCase := List.map upper
  decryptSecret := fun _ => some (of "AA")
  hashRecoveryCode := fun code => code.map fun u => Char.ofNat u.toNat

def plainSession (id : Text) (assurance : SessionAssurance) : FactorSession where
  id := id
  userId := "u"
  tokenHash := id
  assurance := assurance
  expiresAt := 1000000
  createdAt := 0
  totpPendingSecret := some "x"

/-- An enrolment with the code of step 2, in a session opened by `0`. -/
def enrolledRun : List Action :=
  [.start 0 (.session (.createSession (plainSession "s" .password))), .next 0 true,
    .start 1 (.confirmEnrolment
      ⟨"s", of "000 002", 60000, "c", fun i => (Vector.replicate 10 0#8).set 0 (BitVec.ofNat 8 i)⟩)] ++
    List.replicate 7 (.next 1 true)

/-- A sign-in by `t + 1`, in a pending session opened by `t`. -/
def signInRun (t : ℕ) (input : String) : List Action :=
  [.start t (.session (.createSession (plainSession (Text.decimal t) .pending))), .next t true,
    .start (t + 1) (.submit ⟨.completeTwoFactorLogin (Text.decimal t) (Text.decimal t) "n", of input, 60000⟩)] ++
    List.replicate 8 (.next (t + 1) true)

/-- The enrolment's code is not accepted again, the next step's is, and a recovery code once. -/
example :
    let s := Run.run (step plainPrimitives) (init Table.empty 0) (enrolledRun ++ signInRun 2 "000002" ++
      signInRun 4 "000003" ++ signInRun 6 "AAAA aaaa aaaa-aaaa" ++ signInRun 8 "aaaa-aaaa-aaaa-aaaa")
    s.db.log = [.accepted 0 2 ⟨"x", of "000 002", 60000⟩, .accepted 0 3 ⟨"x", of "000003", 60000⟩, .spent 1] := by
  decide +kernel

end BunMail.Users.SecondFactor
