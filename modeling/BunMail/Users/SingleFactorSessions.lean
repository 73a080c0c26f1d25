import BunMail.Users.FactorEnrolment

/-!
# A second factor ends the sessions that rest on the password alone

An enrolment of a first factor leaves no session that was open before its `DELETE` started, but its
own.  A sign-in that has read the account before can still open a session, which stays shut for as
long as the account has a second factor.  It is admitted again once the last factor is removed.
-/

namespace BunMail.Users.Factors

open Transactions Sso Store

/-! ## The condition -/

/-- The session a phase rotates, and since when. -/
def Phase.rotation? : Phase → Option (Text × Time)
  | .rotating rotation startedAt | .rotated rotation startedAt =>
    some (rotation.sessionId, startedAt)
  | _ => none

/-- The session has not expired, or a rotation began before it did. -/
def alive (s : State) (r : OpenedSession) : Bool :=
  decide (s.db.now < r.expiresAt) || s.txs.rows.any fun e =>
    e.2.rotation?.any fun x => x.1 == r.id && decide (x.2 < r.expiresAt)

/-- The statement opens no outdated session while the account has no second factor, removes no last
factor while there is one, and adds no first factor after it has read that there was one. -/
def Phase.undisturbed (s : State) (t : ℕ) : Phase → Bool
  | .passwordVerified signIn =>
    !(opens s t signIn && (signIn.row s.db).outdated s.db) || hasSecondFactor s.db
  | .registering _ _ had =>
    !(s.grants locks t [(.user, .update)] && had) || hasSecondFactor s.db
  | .removed credentialId bound =>
    othersRemain s.db credentialId || s.db.sessions.rows.all fun r =>
      !(r.outdated s.db && alive s r) || bound.contains r.id
  | _ => true

def undisturbed (s : State) : Action → Bool
  | .next t _ => (s.phase? t).elim true (Phase.undisturbed s t)
  | _ => true

theorem alive_iff {s : State} {r : OpenedSession} :
    alive s r = true ↔ s.db.now < r.expiresAt ∨ ∃ t p x, s.phase? t = some p ∧
      p.rotation? = some x ∧ x.1 = r.id ∧ x.2 < r.expiresAt := by
  unfold alive phase?
  rw [Bool.or_eq_true, decide_eq_true_eq, List.any_eq_true]
  refine or_congr_right ⟨?_, ?_⟩
  · rintro ⟨e, he, hany⟩
    obtain ⟨x, hx, hx'⟩ := (Option.any_eq_true _ _).mp hany
    obtain ⟨hid, hlt⟩ := Bool.and_eq_true_iff.mp hx'
    exact ⟨e.1, e.2, x, Table.get?_eq_some_iff.mpr he, hx, beq_iff_eq.mp hid,
      of_decide_eq_true hlt⟩
  · rintro ⟨t, p, x, hp, hx, hid, hlt⟩
    refine ⟨(t, p), Table.get?_eq_some_iff.mp hp, (Option.any_eq_true _ _).mpr ⟨x, hx, ?_⟩⟩
    exact Bool.and_eq_true_iff.mpr ⟨beq_iff_eq.mpr hid, decide_eq_true hlt⟩

/-! ## What a call relies on -/

/-- An enrolment that leaves the other sessions knows of another second factor, and its credential
is not on file. -/
structure Enrolment.Knows (e : Enrolment) (db : Db) : Prop where
  factor : e.revokes = false → hasSecondFactor db = true
  fresh : e.row.id ∉ db.credentials.keys

/-- The `DELETE` has found all sessions opened before, but the enrolment's own. -/
def Enrolment.Covers (e : Enrolment) (ids : List Text) (before : ℕ) (db : Db) : Prop :=
  before ≤ db.opened ∧
    ∀ r ∈ db.sessions.rows, r.number < before → r.id ∈ ids ∨ r.id = e.sessionId

/-- What holds of the committed tables in a phase. -/
def fact : Phase → Db → Prop
  | .registerLocked _ _ had, db => had = true → hasSecondFactor db = true
  | .inserted e, db => e.Knows db
  | .deleting e ids before, db => e.Knows db ∧ e.Covers ids before db
  | .deleted e ids before, db | .raised e ids before, db =>
    e.Knows db ∧ (∀ n, before = some n → e.Covers ids n db) ∧ (before = none → e.revokes = false)
  | _, _ => True

/-- Sessions on file were on file before, or were opened since. -/
structure Later (db db' : Db) : Prop where
  opened : db.opened ≤ db'.opened
  sessions : ∀ r' ∈ db'.sessions.rows,
    (∃ r ∈ db.sessions.rows, r.id = r'.id ∧ r.number = r'.number) ∨ db.opened ≤ r'.number

theorem Enrolment.Covers.later {e : Enrolment} {ids : List Text} {before : ℕ} {db db' : Db}
    (h : e.Covers ids before db) (hl : Later db db') : e.Covers ids before db' := by
  refine ⟨h.1.trans hl.opened, fun r' hr' hlt => ?_⟩
  rcases hl.sessions r' hr' with ⟨r, hr, hid, hnumber⟩ | hnew
  · rw [← hid]
    exact h.2 r hr (hnumber ▸ hlt)
  · exact absurd (h.1.trans hnew) (Nat.not_le_of_lt hlt)

/-- An enrolment that leaves the other sessions holds the account. -/
theorem mem_locks_of_not_revokes {e : Enrolment} (h : e.revokes = false) :
    (RowKey.user, Mode.update) ∈ e.locks := by
  cases e with
  | totp sessionId call => cases h
  | passkey sessionId call had => exact List.mem_singleton_self _

theorem fact_congr {p : Phase} {db db' : Db} (hl : Later db db')
    (hf : Pins locks p .user → hasSecondFactor db = true → hasSecondFactor db' = true)
    (hk : ∀ id, Pins locks p (.credential id) → id ∉ db.credentials.keys → id ∉ db'.credentials.keys)
    (h : fact p db) : fact p db' := by
  have hknows : ∀ {e : Enrolment}, (∀ l ∈ e.locks ++ indexLocks e.row, l ∈ locks p) →
      e.Knows db → e.Knows db' := by
    intro e hlocks he
    refine ⟨fun hrevokes => hf ⟨.update, hlocks _ ?_, rfl⟩ (he.factor hrevokes),
      hk _ ⟨.update, hlocks _ ?_, rfl⟩ he.fresh⟩
    · exact List.mem_append_left _ (mem_locks_of_not_revokes hrevokes)
    · exact List.mem_append_right _ List.mem_cons_self
  cases p with
  | registerLocked sessionId call had =>
    exact fun hhad => hf ⟨.update, List.mem_singleton_self _, rfl⟩ (h hhad)
  | inserted e => exact hknows (fun l hl => hl) h
  | deleting e ids before => exact ⟨hknows (fun l hl => hl) h.1, h.2.later hl⟩
  | deleted e ids before =>
    refine ⟨hknows (fun l hl => ?_) h.1, fun n hn => (h.2.1 n hn).later hl, h.2.2⟩
    exact List.mem_append_left _ hl
  | raised e ids before =>
    refine ⟨hknows (fun l hl => ?_) h.1, fun n hn => (h.2.1 n hn).later hl, h.2.2⟩
    exact List.mem_append_left _ (List.mem_append_left _ hl)
  | _ => trivial

/-! ## What one statement does -/

/-- Everything one statement of the call `t`, in the phase `p`, can do. -/
inductive Next (s : State) (t : ℕ) (p : Phase) : State → Prop
  | wait : Next s t p s
  | goOn (q : Phase) (hl : (∀ l ∈ locks q, l ∈ locks p) ∨ s.grants locks t (locks q) = true)
      (hf : p.undisturbed s t = true → fact p s.db → fact q s.db)
      (hr : ∀ x, q.rotation? = some x → p.rotation? = some x) : Next s t p (s.put t q)
  | open_ (signIn : SignIn) (hp : p = .passwordVerified signIn) (h : opens s t signIn = true) :
      Next s t p { s.put t .ended with db := openSession s.db (signIn.row s.db) }
  | rotate (rotation : Rotation) (startedAt : Time) (hp : p = .rotated rotation startedAt) :
      Next s t p (s.commit writes t (.rotated rotation startedAt) .ended)
  | enrol (e : Enrolment) (ids : List Text) (before : Option ℕ) (hp : p = .raised e ids before) :
      Next s t p (s.commit writes t (.raised e ids before) .ended)
  | remove (credentialId : Text) (bound : List Text) (hp : p = .removed credentialId bound) :
      Next s t p (s.commit writes t (.removed credentialId bound) .ended)

section Next

variable {s : State} {t : ℕ} {p : Phase}

theorem Next.ended : Next s t p (s.put t .ended) :=
  .goOn .ended (.inl fun _ h => absurd h List.not_mem_nil) (fun _ _ => trivial) fun _ h => by cases h

theorem Next.enter {q : Phase}
    (hf : s.grants locks t (locks q) = true → p.undisturbed s t = true → fact p s.db → fact q s.db)
    (hr : ∀ x, q.rotation? = some x → p.rotation? = some x) : Next s t p (s.enter locks t q) := by
  rcases enter_cases locks s t q with he | ⟨hg, he⟩
  · rw [he]
    exact .wait
  · rw [he]
    exact .goOn q (.inr hg) (hf hg) hr

/-- A phase without locks that relies on nothing and rotates nothing. -/
theorem Next.free {q : Phase} (hl : locks q = []) (hf : ∀ db, fact q db) (hr : q.rotation? = none) :
    Next s t p (s.put t q) := by
  refine .goOn q (.inl fun l h => ?_) (fun _ _ => hf _) fun x hx => ?_
  · rw [hl] at h
    exact absurd h List.not_mem_nil
  · rw [hr] at hx
    cases hx

theorem fresh_of_not_violates {db : Db} {row : CredentialRow} (h : ¬violates db row = true) :
    row.id ∉ db.credentials.keys := by
  intro hmem
  obtain ⟨c, hc, hid⟩ := List.mem_map.mp hmem
  refine h (List.any_eq_true.mpr ⟨c, hc, ?_⟩)
  have hsame : (row.id == c.id) = true := beq_iff_eq.mpr hid.symm
  unfold CredentialRow.clashes
  rw [hsame, Bool.true_or, Bool.true_or, Bool.true_or, Bool.true_or]

theorem Next.insert {e : Enrolment}
    (hf : fact p s.db → e.revokes = false → hasSecondFactor s.db = true) :
    Next s t p (insert s t e) := by
  unfold Factors.insert
  split_ifs with hviolates
  · exact Next.ended
  · refine Next.enter (fun _ _ h => ⟨hf h, fresh_of_not_violates hviolates⟩) fun x hx => by cases hx

end Next

theorem next_statement (s : State) (t : ℕ) (ok : Bool) (p : Phase) :
    Next s t p (nextStatement s t ok p) := by
  cases p with
  | passwordRead signIn =>
    cases ok with
    | true => exact Next.free rfl (fun _ => trivial) rfl
    | false => exact Next.ended
  | passwordVerified signIn =>
    unfold nextStatement
    dsimp only
    split_ifs with hopen
    · exact .open_ signIn rfl hopen
    · exact Next.ended
    · exact .wait
  | rotating rotation startedAt =>
    unfold nextStatement
    dsimp only
    split_ifs
    · exact Next.enter (fun _ _ _ => trivial) fun x hx => hx
    · exact Next.ended
  | rotated rotation startedAt => exact .rotate rotation startedAt rfl
  | selecting sessionId startedAt factor =>
    unfold nextStatement
    dsimp only
    split_ifs
    · exact Next.enter (fun _ _ _ => trivial) fun x hx => by cases hx
    · exact Next.ended
  | liveLocked sessionId => exact Next.ended
  | confirmLocked sessionId call =>
    unfold nextStatement
    dsimp only
    split_ifs
    · exact .goOn _ (.inl fun l hl => hl) (fun _ _ => trivial) fun x hx => by cases hx
    · exact Next.ended
  | confirmChecked sessionId call => exact Next.insert fun _ h => by cases h
  | registering sessionId call had =>
    refine Next.enter (fun hg hu _ => ?_) fun x hx => by cases hx
    intro hhad
    unfold Phase.undisturbed at hu
    dsimp only at hu
    rw [show s.grants locks t [(.user, .update)] = true from hg, hhad] at hu
    exact hu
  | registerLocked sessionId call had =>
    refine Next.insert fun h hrevokes => h ?_
    simpa [Enrolment.revokes] using hrevokes
  | inserted e =>
    unfold nextStatement
    dsimp only
    split_ifs with hrevokes
    · refine .goOn _ (.inl fun l hl => hl) (fun _ h => ⟨h, le_rfl, fun r hr _ => ?_⟩)
        fun x hx => by cases hx
      by_cases hid : r.id = e.sessionId
      · exact .inr hid
      · left
        exact List.mem_map.mpr ⟨r, List.mem_filter.mpr ⟨hr, bne_iff_ne.mpr hid⟩, rfl⟩
    · refine .goOn _ (.inl fun l hl => ?_) (fun _ h => ⟨h, ?_, fun _ => Bool.eq_false_iff.mpr hrevokes⟩)
        fun x hx => by cases hx
      · rwa [show locks (.deleted e [] none) = locks (.inserted e) from List.append_nil _] at hl
      · intro n hn
        cases hn
  | deleting e ids before =>
    refine Next.enter (fun _ _ h => ⟨h.1, fun n hn => ?_, fun hn => by cases hn⟩) fun x hx => by cases hx
    cases hn
    exact h.2
  | deleted e ids before => exact Next.enter (fun _ _ h => h) fun x hx => by cases hx
  | raised e ids before => exact .enrol e ids before rfl
  | removalRead removal credentialId =>
    cases ok with
    | true => exact Next.free rfl (fun _ => trivial) rfl
    | false => exact Next.ended
  | removalSelecting removal credentialId linked others =>
    exact Next.enter (fun _ _ _ => trivial) fun x hx => by cases hx
  | removalLocked removal credentialId linked others =>
    unfold nextStatement
    dsimp only
    split_ifs
    · exact Next.ended
    · cases removalTarget s.db credentialId removal with
      | none => exact Next.ended
      | some id => exact Next.enter (fun _ _ _ => trivial) fun x hx => by cases hx
  | removed credentialId bound => exact .remove credentialId bound rfl
  | ended => exact .wait

/-! ## The invariant -/

/-- The invariant of a run whose statements meet the condition. -/
structure Inv (s : State) : Prop where
  exclusive : s.Exclusive locks
  facts : s.Facts fact
  /-- As long as an outdated session is alive, the account has a second factor. -/
  covered : ∀ r ∈ s.db.sessions.rows, r.outdated s.db = true → alive s r = true →
    hasSecondFactor s.db = true
  /-- The sessions that an enrolment has found are gone. -/
  gone : ∀ e ∈ s.db.enrolled, ∃ n, e.before = some n ∧ n ≤ s.db.opened ∧
    ∀ r ∈ s.db.sessions.rows, r.number < n → r.id = e.sessionId

theorem Later.gone {db db' : Db} (hl : Later db db') {e : Enrolled}
    (h : ∃ n, e.before = some n ∧ n ≤ db.opened ∧
      ∀ r ∈ db.sessions.rows, r.number < n → r.id = e.sessionId) :
    ∃ n, e.before = some n ∧ n ≤ db'.opened ∧
      ∀ r ∈ db'.sessions.rows, r.number < n → r.id = e.sessionId := by
  obtain ⟨n, hn, hle, hrows⟩ := h
  refine ⟨n, hn, hle.trans hl.opened, fun r' hr' hlt => ?_⟩
  rcases hl.sessions r' hr' with ⟨r, hr, hid, hnumber⟩ | hnew
  · rw [← hid]
    exact hrows r hr (hnumber ▸ hlt)
  · exact absurd (hle.trans hnew) (Nat.not_le_of_lt hlt)

section Steps

variable {s : State} {t : ℕ} {p q : Phase}

/-- A phase rotates what it has rotated before, or begins to. -/
theorem alive_of_put {r : OpenedSession} (h : alive (s.put t q) r = true)
    (hr : ∀ x, q.rotation? = some x → s.db.now = x.2 ∨ ∃ p, s.phase? t = some p ∧ p.rotation? = some x) :
    alive s r = true := by
  rw [alive_iff] at h ⊢
  rcases h with h | ⟨u, p', x, hp', hx, hid, hlt⟩
  · exact .inl h
  · rw [phase?_put] at hp'
    split_ifs at hp' with hu
    · cases hp'
      rcases hr x hx with hnow | ⟨p, hp, hpx⟩
      · left
        rw [hnow]
        exact hlt
      · exact .inr ⟨t, p, x, hp, hpx, hid, hlt⟩
    · exact .inr ⟨u, p', x, hp', hx, hid, hlt⟩

/-- A call that goes on. -/
theorem Inv.put (h : Inv s) (hl : (s.put t q).Exclusive locks) (hf : fact q s.db)
    (hr : ∀ x, q.rotation? = some x → s.db.now = x.2 ∨ ∃ p, s.phase? t = some p ∧ p.rotation? = some x) :
    Inv (s.put t q) where
  exclusive := hl
  facts := h.facts.put hf
  covered r hrow ho ha := h.covered r hrow ho (alive_of_put ha hr)
  gone := h.gone

/-- A step that writes: the calls that go on are not affected. -/
theorem Inv.write {s' : State} (h : Inv s) (hl : Later s.db s'.db)
    (hexclusive : s'.Exclusive locks)
    (hcalls : ∀ u r, s'.phase? u = some r → r = .ended ∨ s.phase? u = some r ∧
      (Pins locks r .user → hasSecondFactor s.db = true → hasSecondFactor s'.db = true) ∧
      ∀ id, Pins locks r (.credential id) → id ∉ s.db.credentials.keys → id ∉ s'.db.credentials.keys)
    (hcovered : ∀ r ∈ s'.db.sessions.rows, r.outdated s'.db = true → alive s' r = true →
      hasSecondFactor s'.db = true)
    (hgone : ∀ e ∈ s'.db.enrolled, e ∈ s.db.enrolled ∨ ∃ n, e.before = some n ∧ n ≤ s'.db.opened ∧
      ∀ r ∈ s'.db.sessions.rows, r.number < n → r.id = e.sessionId) : Inv s' where
  exclusive := hexclusive
  facts u r hr := by
    rcases hcalls u r hr with rfl | ⟨hold, hfactor, hkeys⟩
    · trivial
    · exact fact_congr hl hfactor hkeys (h.facts u r hold)
  covered := hcovered
  gone e he := (hgone e he).elim (fun hold => hl.gone (h.gone e hold)) id

/-- The other calls after `t` has ended. -/
theorem phase?_of_ended {db : Db} {u : ℕ} {r : Phase}
    (h : phase? { s.put t .ended with db := db } u = some r) :
    r = .ended ∨ u ≠ t ∧ s.phase? u = some r := by
  have hput : (s.put t .ended).phase? u = some r := h
  rw [phase?_put] at hput
  split_ifs at hput with hu
  · exact .inl (Option.some.inj hput).symm
  · exact .inr ⟨hu, hput⟩

theorem alive_of_ended {db : Db} {r r' : OpenedSession} (hnow : db.now = s.db.now)
    (hid : r.id = r'.id) (hexp : r.expiresAt = r'.expiresAt)
    (h : alive { s.put t .ended with db := db } r' = true) : alive s r = true := by
  rw [alive_iff] at h ⊢
  rw [hexp, hid]
  rcases h with h | ⟨u, p, x, hp, hx, hxid, hlt⟩
  · left
    rw [← hnow]
    exact h
  · rcases phase?_of_ended hp with rfl | ⟨_, hold⟩
    · cases hx
    · exact .inr ⟨u, p, x, hold, hx, hxid, hlt⟩

/-! ### The statements that write -/

theorem inv_open {signIn : SignIn} (h : Inv s) (hopen : opens s t signIn = true)
    (hu : (Phase.passwordVerified signIn).undisturbed s t = true) :
    Inv { s.put t .ended with db := openSession s.db (signIn.row s.db) } := by
  have hrows : (openSession s.db (signIn.row s.db)).sessions.rows =
      s.db.sessions.rows ++ [signIn.row s.db] := by
    refine Table.insert_rows fun hmem => ?_
    have hfresh := (Bool.and_eq_true_iff.mp hopen).2
    rw [Bool.not_eq_true', ← Bool.not_eq_true, List.contains_iff_mem] at hfresh
    exact hfresh hmem
  refine h.write ⟨Nat.le_succ _, fun r' hr' => ?_⟩ (h.exclusive.put_free rfl) (fun u r hr => ?_)
    (fun r' hr' ho ha => ?_) fun e he => .inl he
  · rw [hrows] at hr'
    rcases List.mem_append.mp hr' with hold | hnew
    · exact .inl ⟨r', hold, rfl, rfl⟩
    · rw [List.mem_singleton.mp hnew]
      exact .inr le_rfl
  · exact (phase?_of_ended hr).imp_right fun hold => ⟨hold.2, fun _ hf => hf, fun _ _ hid => hid⟩
  · rw [hrows] at hr'
    rcases List.mem_append.mp hr' with hold | hnew
    · exact h.covered r' hold ho (alive_of_ended rfl rfl rfl ha)
    · obtain rfl := List.mem_singleton.mp hnew
      unfold Phase.undisturbed at hu
      dsimp only at hu
      have ho' : (signIn.row s.db).outdated s.db = true := ho
      rw [hopen, ho'] at hu
      exact hu

theorem inv_rotate {rotation : Rotation} {startedAt : Time} (h : Inv s)
    (hp : s.phase? t = some (.rotated rotation startedAt)) :
    Inv (s.commit writes t (.rotated rotation startedAt) .ended) := by
  have hrows : ∀ r' ∈ (writes (.rotated rotation startedAt) s.db).sessions.rows,
      ∃ r ∈ s.db.sessions.rows, rotation.update startedAt r = r' := fun r' hr' => List.mem_map.mp hr'
  refine h.write ⟨le_rfl, fun r' hr' => ?_⟩ (h.exclusive.commit rfl) (fun u r hr => ?_)
    (fun r' hr' ho ha => ?_) fun e he => .inl he
  · obtain ⟨r, hr, rfl⟩ := hrows r' hr'
    refine .inl ⟨r, hr, (rotation.update_id startedAt r).symm, ?_⟩
    unfold Rotation.update
    split_ifs <;> rfl
  · exact (phase?_of_ended hr).imp_right fun hold => ⟨hold.2, fun _ hf => hf, fun _ _ hid => hid⟩
  · obtain ⟨r, hr, rfl⟩ := hrows r' hr'
    unfold Rotation.update at ho ha
    split_ifs at ho ha with hrot
    · -- the row had not expired when the rotation began
      refine h.covered r hr ho (alive_iff.mpr (.inr ⟨t, _, _, hp, rfl, hrot.1.symm, ?_⟩))
      exact of_decide_eq_true (Bool.and_eq_true_iff.mp hrot.2).2
    · exact h.covered r hr ho (alive_of_ended rfl rfl rfl ha)

theorem Enrolment.secondFactor (e : Enrolment) : e.row.type.secondFactor = true := by
  cases e <;> rfl

theorem inv_enrol {e : Enrolment} {ids : List Text} {before : Option ℕ} (h : Inv s)
    (hp : s.phase? t = some (.raised e ids before)) :
    Inv (s.commit writes t (.raised e ids before) .ended) := by
  obtain ⟨hknows, hcovers, hnone⟩ := h.facts t _ hp
  have hcredentials : (writes (.raised e ids before) s.db).credentials.rows =
      s.db.credentials.rows ++ [e.row] := Table.insert_rows hknows.fresh
  have hfactor : hasSecondFactor (writes (.raised e ids before) s.db) = true := by
    unfold hasSecondFactor
    rw [hcredentials, List.any_append, Bool.or_eq_true]
    exact .inr (List.any_eq_true.mpr ⟨e.row, List.mem_singleton_self _, e.secondFactor⟩)
  have hrows : ∀ r' ∈ (writes (.raised e ids before) s.db).sessions.rows,
      ∃ r ∈ s.db.sessions.rows, r.id ∉ ids ∧ r.id = r'.id ∧ r.number = r'.number := by
    intro r' hr'
    obtain ⟨r, hr, rfl⟩ := List.mem_map.mp hr'
    obtain ⟨hmem, hkept⟩ := Table.mem_deleteWhere.mp hr
    refine ⟨r, hmem, ?_, (raiseSession_id _ r).symm, ?_⟩
    · simpa using hkept
    · unfold raiseSession
      split_ifs <;> rfl
  refine h.write ⟨le_rfl, fun r' hr' => ?_⟩ (h.exclusive.commit rfl) (fun u r hr => ?_)
    (fun _ _ _ _ => hfactor) fun record hrecord => ?_
  · obtain ⟨r, hr, _, hid, hnumber⟩ := hrows r' hr'
    exact .inl ⟨r, hr, hid, hnumber⟩
  · refine (phase?_of_ended hr).imp_right fun hold => ⟨hold.2, fun _ _ => hfactor, ?_⟩
    intro id hpin hid hmem
    rcases Table.mem_keys_insert.mp hmem with rfl | hold'
    · -- the same id would be locked twice
      refine h.exclusive.not_changes hp hold.2 hold.1 hpin ⟨.update, ?_, rfl⟩
      exact List.mem_append_left _ (List.mem_append_left _
        (List.mem_append_right _ List.mem_cons_self))
    · exact hid hold'
  · by_cases hfirst : hasSecondFactor s.db = true
    · left
      have henrolled : (writes (.raised e ids before) s.db).enrolled = s.db.enrolled := if_pos hfirst
      exact henrolled ▸ hrecord
    · have henrolled : (writes (.raised e ids before) s.db).enrolled =
          s.db.enrolled ++ [⟨e.sessionId, before⟩] := if_neg hfirst
      have hmem : record ∈ s.db.enrolled ++ [⟨e.sessionId, before⟩] := henrolled ▸ hrecord
      refine (List.mem_append.mp hmem).imp_right fun hnew => ?_
      rw [List.mem_singleton.mp hnew]
      cases before with
      | none => exact absurd (hknows.factor (hnone rfl)) hfirst
      | some n =>
        obtain ⟨hle, hfound⟩ := hcovers n rfl
        refine ⟨n, rfl, hle, fun r' hr' hlt => ?_⟩
        obtain ⟨r, hr, hkept, hid, hnumber⟩ := hrows r' hr'
        rw [← hid]
        exact (hfound r hr (hnumber ▸ hlt)).resolve_left hkept

theorem inv_remove {credentialId : Text} {bound : List Text} (h : Inv s)
    (hp : s.phase? t = some (.removed credentialId bound))
    (hu : (Phase.removed credentialId bound).undisturbed s t = true) :
    Inv (s.commit writes t (.removed credentialId bound) .ended) := by
  have hrows : ∀ r ∈ (writes (.removed credentialId bound) s.db).sessions.rows,
      r ∈ s.db.sessions.rows ∧ r.id ∉ bound := by
    intro r hr
    obtain ⟨hmem, hkept⟩ := Table.mem_deleteWhere.mp hr
    exact ⟨hmem, by simpa using hkept⟩
  refine h.write ⟨le_rfl, fun r hr => .inl ⟨r, (hrows r hr).1, rfl, rfl⟩⟩ (h.exclusive.commit rfl)
    (fun u r hr => ?_) (fun r hr ho ha => ?_) fun e he => .inl he
  · refine (phase?_of_ended hr).imp_right fun hold => ⟨hold.2, fun hpin => ?_, ?_⟩
    · exact absurd ⟨.update, List.mem_cons_self, rfl⟩ (h.exclusive.not_changes hp hold.2 hold.1 hpin)
    · intro id _ hid hmem
      obtain ⟨c, hc, rfl⟩ := List.mem_map.mp hmem
      exact hid (List.mem_map_of_mem (Table.mem_deleteWhere.mp hc).1)
  · unfold Phase.undisturbed at hu
    dsimp only at hu
    rcases Bool.or_eq_true_iff.mp hu with hothers | hnone
    · obtain ⟨c, hc, hother⟩ := List.any_eq_true.mp hothers
      obtain ⟨hfactor, hne⟩ := Bool.and_eq_true_iff.mp hother
      refine List.any_eq_true.mpr ⟨c, Table.mem_deleteWhere.mpr ⟨hc, ?_⟩, hfactor⟩
      exact Bool.eq_false_iff.mpr fun heq => absurd (beq_iff_eq.mp heq) (bne_iff_ne.mp hne)
    · obtain ⟨hmem, hkept⟩ := hrows r hr
      have hrow := List.all_eq_true.mp hnone r hmem
      have ho' : r.outdated s.db = true := ho
      rw [ho', alive_of_ended rfl rfl rfl ha] at hrow
      exact absurd (List.contains_iff_mem.mp hrow) hkept

theorem inv_next {ok : Bool} (h : Inv s) (hp : s.phase? t = some p) (hu : p.undisturbed s t = true) :
    Inv (nextStatement s t ok p) := by
  have hnext := next_statement s t ok p
  generalize nextStatement s t ok p = s' at hnext ⊢
  cases hnext with
  | wait => exact h
  | goOn q hl hf hr =>
    refine h.put ?_ (hf hu (h.facts t p hp)) fun x hx => .inr ⟨p, hp, hr x hx⟩
    rcases hl with hheld | hgranted
    · exact h.exclusive.put_held hp hheld
    · exact h.exclusive.put hgranted
  | open_ signIn hphase hopen =>
    subst hphase
    exact inv_open h hopen hu
  | rotate rotation startedAt hphase =>
    subst hphase
    exact inv_rotate h hp
  | enrol e ids before hphase =>
    subst hphase
    exact inv_enrol h hp
  | remove credentialId bound hphase =>
    subst hphase
    exact inv_remove h hp hu

/-- A call starts without locks, or waits for its session. -/
theorem inv_start (h : Inv s) (call : Call) : Inv (start s t call) := by
  have hfree : ∀ {q : Phase}, locks q = [] → fact q s.db → q.rotation? = none → Inv (s.put t q) := by
    intro q hl hf hr
    refine h.put (h.exclusive.put_free hl) hf fun x hx => ?_
    rw [hr] at hx
    cases hx
  cases call with
  | signIn id tokenHash =>
    unfold start
    dsimp only
    cases verifyPasswordLogin s.db with
    | none => exact hfree rfl trivial rfl
    | some login => exact hfree rfl trivial rfl
  | rotateSession rotation =>
    refine h.put (h.exclusive.put_free rfl) trivial fun x hx => .inl ?_
    cases hx
    rfl
  | lockLiveSession sessionId =>
    unfold start
    dsimp only
    cases lockLiveSession s.db sessionId with
    | none => exact hfree rfl trivial rfl
    | some r => exact hfree rfl trivial rfl
  | confirmEnrolment sessionId call =>
    unfold start
    dsimp only
    split_ifs
    · rcases enter_cases locks s t (.confirmLocked sessionId call) with he | ⟨hg, he⟩
      · rw [he]
        exact h
      · rw [he]
        exact h.put (h.exclusive.put hg) trivial fun x hx => by cases hx
    · exact hfree rfl trivial rfl
  | finishRegistration sessionId call => exact hfree rfl trivial rfl
  | disableTwoFactor =>
    unfold start
    dsimp only
    cases totpCredentialOf s.db with
    | none => exact hfree rfl trivial rfl
    | some c => exact hfree rfl trivial rfl
  | deletePasskey passkeyId =>
    unfold start
    dsimp only
    cases removalTarget s.db passkeyId .passkey with
    | none => exact hfree rfl trivial rfl
    | some id => exact hfree rfl trivial rfl

theorem inv_step {a : Action} (h : Inv s) (hu : undisturbed s a = true) : Inv (step s a) := by
  cases a with
  | start t call =>
    unfold step
    dsimp only
    split_ifs
    · exact h
    · exact inv_start h call
  | next t ok =>
    unfold step undisturbed at *
    dsimp only at *
    cases hp : s.phase? t with
    | none => exact h
    | some p =>
      rw [hp] at hu
      exact inv_next h hp hu
  | fail t =>
    unfold step
    dsimp only
    split_ifs
    · exact h.put (h.exclusive.put_free rfl) trivial fun x hx => by cases hx
    · exact h
  | revokeSessionByToken t tokenHash =>
    unfold step
    dsimp only
    split_ifs
    · refine h.write ⟨le_rfl, fun r hr => .inl ⟨r, (Table.mem_deleteWhere.mp hr).1, rfl, rfl⟩⟩
        h.exclusive (fun u r hr => .inr ⟨hr, fun _ hf => hf, fun _ _ hid => hid⟩)
        (fun r hr ho ha => h.covered r (Table.mem_deleteWhere.mp hr).1 ho ha) fun e he => .inl he
    · exact h
  | tick ms =>
    refine h.write ⟨le_rfl, fun r hr => .inl ⟨r, hr, rfl, rfl⟩⟩ h.exclusive
      (fun u r hr => .inr ⟨hr, fun _ hf => hf, fun _ _ hid => hid⟩) (fun r hr ho ha => ?_)
      fun e he => .inl he
    refine h.covered r hr ho (alive_iff.mpr ?_)
    refine (alive_iff.mp ha).imp_left fun hlt => ?_
    exact lt_of_le_of_lt (Nat.le_add_right s.db.now ms) hlt

end Steps

/-! ## The result -/

/-- **What an enrolment ends.** -/
structure EndsSingleFactor (s : State) : Prop where
  /-- No outdated session is admitted. -/
  admitted : ∀ tokenHash r, findActiveSession s.db tokenHash = some r → r.outdated s.db = false
  /-- None is locked for an SSO link. -/
  locked : ∀ sessionId r, lockLiveSession s.db sessionId = some r → r.outdated s.db = false
  /-- Of the sessions opened before the `DELETE` of an enrolment only its own is left. -/
  gone : ∀ e ∈ s.db.enrolled, ∃ n, e.before = some n ∧
    ∀ r ∈ s.db.sessions.rows, r.number < n → r.id = e.sessionId

/-- A live session is not outdated. -/
theorem not_outdated_of_live {s : State} (h : Inv s) {r : OpenedSession} (hr : r ∈ s.db.sessions.rows)
    (hlive : r.live s.db.now (hasSecondFactor s.db) = true) : r.outdated s.db = false := by
  obtain ⟨hexp, hassurance⟩ := Bool.and_eq_true_iff.mp hlive
  by_contra ho
  have ho := Bool.not_eq_false _ ▸ ho
  have hfactor := h.covered r hr ho (alive_iff.mpr (.inl (of_decide_eq_true hexp)))
  have hpassword : r.assurance = .password := beq_iff_eq.mp (Bool.and_eq_true_iff.mp ho).1
  rw [hpassword, hfactor] at hassurance
  cases hassurance

theorem endsSingleFactor_of_inv {s : State} (h : Inv s) : EndsSingleFactor s where
  admitted tokenHash r hr := by
    have hfound := List.find?_some hr
    exact not_outdated_of_live h (List.mem_of_find?_eq_some hr)
      (Bool.and_eq_true_iff.mp (Bool.and_eq_true_iff.mp hfound).1).2
  locked sessionId r hr := by
    obtain ⟨hrow, hlive⟩ := Option.filter_eq_some_iff.mp hr
    exact not_outdated_of_live h (Table.mem_of_find? hrow) (Bool.and_eq_true_iff.mp hlive).1
  gone e he := by
    obtain ⟨n, hn, _, hrows⟩ := h.gone e he
    exact ⟨n, hn, hrows⟩

variable {user : UserRow} {credentials : Table CredentialRow.id}
  {sessions : Table (fun r : OpenedSession => r.id)} {now : Time} {actions : List Action}

/-- An account with a password. -/
def account : UserRow where
  id := "usr_1"
  email := "a@x.org"
  role := .member

def passwordOnly : Table CredentialRow.id :=
  Table.empty.insert
    { id := "crd_1", userId := "usr_1", type := .password, secretHash := some "$argon2id$" }

/-- The session that enrols. -/
def ownSession : Table (fun r : OpenedSession => r.id) :=
  Table.empty.insert
    { id := "ses_1", userId := "usr_1", tokenHash := "hash_1", assurance := .password
      credentialId := some "crd_1", expiresAt := 86400000, createdAt := 0, number := 0, readAt := 0 }

/-- All statements of a call, whose answers are all right. -/
def whole (t : ℕ) (call : Call) (statements : ℕ) : List Action :=
  .start t call :: List.replicate statements (.next t true)

def confirm : Call := .confirmEnrolment "ses_1" ⟨"usr_1", "crd_2", "secret", 1⟩

/-- A sign-in reads the account, a second factor is confirmed, and the sign-in opens its session. -/
def lateSignIn : List Action :=
  .start 1 (.signIn "ses_2" "hash_2") :: whole 2 confirm 7 ++ [.next 1 true, .next 1 true]

end BunMail.Users.Factors
