import BunMail.Users.SsoOwnerRule

/-!
# An owner with an SSO link has a second factor

The checks of `linkSsoIdentity` and `removalBreaksOwnerSsoRule` decide on what their statement read
when it started, and `disableTwoFactor` checks one credential and deletes the one its code matches.
Where what is committed at the lock would not have been refused either, and the deleted credential
passes the check too, the rule holds in every committed state: each transaction decides on rows
that it holds until it ends.
-/

namespace BunMail.Users.Sso

open Transactions Run

/-! ## The rule and its condition -/

/-- The owner rule of SSO. -/
def OwnerRule (db : Accounts) : Prop :=
  ∀ u ∈ db.users.rows, u.role = .owner → hasSsoLink db u.id = true → hasSecondFactor db u.id = true

instance (db : Accounts) : Decidable (OwnerRule db) :=
  inferInstanceAs (Decidable (∀ u ∈ db.users.rows, u.role = .owner → hasSsoLink db u.id = true →
    hasSecondFactor db u.id = true))

/-- What the removal of `credentialId` would be answered on the committed tables. -/
def breaksNow (db : Accounts) (role : UserRole) (userId credentialId : Text) : Bool :=
  removalBreaksOwnerSsoRule role (hasSsoLink db userId) (othersRemain db userId credentialId)

/-- What the next statement of `t` decides is what the committed tables say: a check that passes on
what was read when its statement started passes on what is committed when the lock is granted, and
the credential to delete passes it as the one that was checked did. -/
def CurrentAt (s : State) (t : ℕ) : Phase → Prop
  | .linkSelecting call factor => ∀ u ∈ s.db.users.rows, u.id = call.userId →
      s.grants locks t [(.user call.userId, .update)] = true →
      ownerNeedsSecondFactor u.role factor = false →
      ownerNeedsSecondFactor u.role (hasSecondFactor s.db call.userId) = false
  | .removalSelecting _ userId credentialId linked others => ∀ u ∈ s.db.users.rows, u.id = userId →
      s.grants locks t [(.user userId, .update)] = true →
      removalBreaksOwnerSsoRule u.role linked others = false →
      breaksNow s.db u.role userId credentialId = false
  | .removalLocked removal userId credentialId role linked others =>
      removalBreaksOwnerSsoRule role linked others = false →
      ∀ id ∈ removal.target s.db userId credentialId, id ≠ credentialId →
        breaksNow s.db role userId id = false
  | .linkLocked .. | .linkInserted _ | .removalRead .. | .removed .. | .enrolmentChecked _
  | .totpInserted _ | .totpTouched _ | .registrationLocked _ | .passkeyInserted _
  | .transferRead .. | .transferOwned .. | .actorLocked .. | .targetLocked .. | .transferred ..
  | .resetOwned _ | .resetSpent _ | .resetLocked _ | .resetWritten _ | .ended => True

instance (s : State) (t : ℕ) : (p : Phase) → Decidable (CurrentAt s t p)
  | .linkSelecting call factor => inferInstanceAs (Decidable (∀ u ∈ s.db.users.rows,
      u.id = call.userId → s.grants locks t [(.user call.userId, .update)] = true →
      ownerNeedsSecondFactor u.role factor = false →
      ownerNeedsSecondFactor u.role (hasSecondFactor s.db call.userId) = false))
  | .removalSelecting _ userId credentialId linked others =>
    inferInstanceAs (Decidable (∀ u ∈ s.db.users.rows, u.id = userId →
      s.grants locks t [(.user userId, .update)] = true →
      removalBreaksOwnerSsoRule u.role linked others = false →
      breaksNow s.db u.role userId credentialId = false))
  | .removalLocked removal userId credentialId role linked others =>
    inferInstanceAs (Decidable (removalBreaksOwnerSsoRule role linked others = false →
      ∀ id ∈ removal.target s.db userId credentialId, id ≠ credentialId →
        breaksNow s.db role userId id = false))
  | .linkLocked .. | .linkInserted _ | .removalRead .. | .removed .. | .enrolmentChecked _
  | .totpInserted _ | .totpTouched _ | .registrationLocked _ | .passkeyInserted _
  | .transferRead .. | .transferOwned .. | .actorLocked .. | .targetLocked .. | .transferred ..
  | .resetOwned _ | .resetSpent _ | .resetLocked _ | .resetWritten _ | .ended => isTrue trivial

/-- The action meets it. -/
def Current (s : State) : Action → Prop
  | .next t _ => ∀ p ∈ s.phase? t, CurrentAt s t p
  | .start .. | .fail _ => True

instance (s : State) : (a : Action) → Decidable (Current s a)
  | .next t _ => inferInstanceAs (Decidable (∀ p ∈ s.phase? t, CurrentAt s t p))
  | .start .. | .fail _ => isTrue trivial

/-! ## Reading an account -/

section Reading

variable {db db' : Accounts} {u id : Text}

theorem hasSecondFactor_iff :
    hasSecondFactor db u = true ↔
      ∃ c ∈ db.credentials.rows, c.userId = u ∧ c.type.secondFactor = true := by
  simp [hasSecondFactor, credentialsOf]

theorem hasSsoLink_iff :
    hasSsoLink db u = true ↔ ∃ c ∈ db.credentials.rows, c.userId = u ∧ c.type = .oauth := by
  simp [hasSsoLink, credentialsOf]

theorem othersRemain_iff :
    othersRemain db u id = true ↔
      ∃ c ∈ db.credentials.rows, c.userId = u ∧ c.type.secondFactor = true ∧ c.id ≠ id := by
  simp [othersRemain, credentialsOf]

/-- The two tables say the same of the account `u`. -/
structure SameAccount (u : Text) (db db' : Accounts) : Prop where
  user : db'.users.find? u = db.users.find? u
  credentials : credentialsOf db' u = credentialsOf db u

theorem SameAccount.rfl : SameAccount u db db := ⟨Eq.refl _, Eq.refl _⟩

theorem SameAccount.trans {db'' : Accounts} (h : SameAccount u db db')
    (h' : SameAccount u db' db'') : SameAccount u db db'' :=
  ⟨h'.user.trans h.user, h'.credentials.trans h.credentials⟩

theorem SameAccount.hasSecondFactor (h : SameAccount u db db') :
    hasSecondFactor db' u = hasSecondFactor db u := by
  unfold Sso.hasSecondFactor
  rw [h.credentials]

theorem SameAccount.hasSsoLink (h : SameAccount u db db') : hasSsoLink db' u = hasSsoLink db u := by
  unfold Sso.hasSsoLink
  rw [h.credentials]

theorem SameAccount.othersRemain (h : SameAccount u db db') :
    othersRemain db' u id = othersRemain db u id := by
  unfold Sso.othersRemain
  rw [h.credentials]

/-- The rule, of one account. -/
def RuleAt (db : Accounts) (u : Text) : Prop :=
  ∀ row, db.users.find? u = some row → row.role = .owner → hasSsoLink db u = true →
    hasSecondFactor db u = true

theorem ownerRule_iff : OwnerRule db ↔ ∀ u, RuleAt db u := by
  constructor
  · intro h u row hf
    rw [← Table.key_of_find? hf]
    exact h row (Table.mem_of_find? hf)
  · intro h row hm
    exact h row.id row (Table.find?_of_mem hm)

theorem RuleAt.congr (h : RuleAt db u) (hs : SameAccount u db db') : RuleAt db' u := by
  intro row hf
  rw [hs.hasSsoLink, hs.hasSecondFactor]
  exact h row (hs.user ▸ hf)

end Reading

/-! ## Writing an account -/

section Writing

variable {db : Accounts} {u v : Text} {row : CredentialRow} {gone : CredentialRow → Bool}

theorem insertCredential_rows (row : CredentialRow) (db : Accounts) :
    (insertCredential row db).credentials.rows = db.credentials.rows ∨
      (insertCredential row db).credentials.rows = db.credentials.rows ++ [row] := by
  unfold insertCredential
  rw [Table.upsert_rows]
  by_cases hk : row.id ∈ db.credentials.rows.map CredentialRow.id
  · rw [Table.upsertRows_of_mem hk]
    exact .inl (by simp)
  · exact .inr (Table.upsertRows_of_notMem hk)

theorem mem_of_insertCredential {c : CredentialRow}
    (hc : c ∈ (insertCredential row db).credentials.rows) :
    c ∈ db.credentials.rows ∨ c = row := by
  rcases insertCredential_rows row db with h | h <;> rw [h] at hc
  · exact .inl hc
  · simpa using hc

theorem mem_insertCredential {c : CredentialRow} (hc : c ∈ db.credentials.rows) :
    c ∈ (insertCredential row db).credentials.rows := by
  rcases insertCredential_rows row db with h | h <;> rw [h]
  · exact hc
  · exact List.mem_append_left _ hc

theorem hasSecondFactor_insert (h : hasSecondFactor db u = true) :
    hasSecondFactor (insertCredential row db) u = true := by
  obtain ⟨c, hc, hu⟩ := hasSecondFactor_iff.mp h
  exact hasSecondFactor_iff.mpr ⟨c, mem_insertCredential hc, hu⟩

theorem sameAccount_insert (h : row.userId ≠ u) : SameAccount u db (insertCredential row db) := by
  refine ⟨rfl, ?_⟩
  unfold credentialsOf
  rcases insertCredential_rows row db with hr | hr <;> rw [hr]
  simp [h]

theorem sameAccount_delete (h : ∀ c ∈ db.credentials.rows, c.userId = u → gone c = false) :
    SameAccount u db (deleteCredentials gone db) := by
  refine ⟨rfl, ?_⟩
  unfold credentialsOf deleteCredentials Table.deleteWhere
  rw [List.filter_filter]
  refine List.filter_congr fun c hc => ?_
  by_cases hu : c.userId = u
  · simp [hu, h c hc hu]
  · simp [hu]

theorem sameAccount_setRole {role : UserRole} (h : v ≠ u) :
    SameAccount u db (setRole v role db) := by
  refine ⟨?_, rfl⟩
  unfold setRole
  rw [Table.find?_updateAll]
  cases hf : db.users.find? u with
  | none => rfl
  | some row =>
    have hid : row.id = u := Table.key_of_find? hf
    rw [Option.map_some, withRole, if_neg fun hv => h (hv.symm.trans hid)]

theorem sameAccount_reset {call : ResetCall} (h : call.userId ≠ u) :
    SameAccount u db (call.write db) := by
  have hdelete : ∀ (p : CredentialRow → Bool) (d : Accounts),
      SameAccount u d (deleteCredentials (fun c => c.userId == call.userId && p c) d) := by
    refine fun p d => sameAccount_delete fun c _ hc => ?_
    rw [hc, beq_false_of_ne (Ne.symm h), Bool.false_and]
  have hinsert : call.row.userId ≠ u := h
  exact (((hdelete _ _).trans (sameAccount_insert hinsert)).trans (hdelete _ _)).trans (hdelete _ _)

/-- A new credential that is not a link keeps the rule. -/
theorem RuleAt.insert (h : RuleAt db u) (ht : row.type ≠ .oauth) :
    RuleAt (insertCredential row db) u := by
  intro r hr ho hl
  refine hasSecondFactor_insert (h r hr ho ?_)
  obtain ⟨c, hc, hu, hct⟩ := hasSsoLink_iff.mp hl
  rcases mem_of_insertCredential hc with hc | rfl
  · exact hasSsoLink_iff.mpr ⟨c, hc, hu, hct⟩
  · exact absurd hct ht

/-- A link of an account that needs no second factor or has one keeps the rule. -/
theorem ruleAt_link
    (h : ∀ r, db.users.find? u = some r → ownerNeedsSecondFactor r.role (hasSecondFactor db u) = false) :
    RuleAt (insertCredential row db) u := by
  intro r hr ho _
  have := h r hr
  rw [ownerNeedsSecondFactor, ho] at this
  exact hasSecondFactor_insert (by simpa using this)

/-- A removal the rule does not refuse keeps it. -/
theorem ruleAt_remove {id : Text} (hgone : ∀ c, gone c = true → c.id = id)
    (h : ∀ r, db.users.find? u = some r → breaksNow db r.role u id = false) :
    RuleAt (deleteCredentials gone db) u := by
  intro r hr ho hl
  have hlinked : hasSsoLink db u = true := by
    obtain ⟨c, hc, hu⟩ := hasSsoLink_iff.mp hl
    exact hasSsoLink_iff.mpr ⟨c, (Table.mem_deleteWhere.mp hc).1, hu⟩
  have hothers : othersRemain db u id = true := by
    have := h r hr
    rw [breaksNow, removalBreaksOwnerSsoRule, ho, hlinked] at this
    simpa using this
  obtain ⟨c, hc, hu, hf, hid⟩ := othersRemain_iff.mp hothers
  refine hasSecondFactor_iff.mpr ⟨c, Table.mem_deleteWhere.mpr ⟨hc, ?_⟩, hu, hf⟩
  rw [← Bool.not_eq_true]
  exact fun hg => hid (hgone c hg)

/-- The rule after a transfer to an account that may hold its links as an owner. -/
theorem ruleAt_transfer {actor target : Text} (h : RuleAt db v)
    (ht : ssoLinkWithoutSecondFactor db target = false) :
    RuleAt (setRole target .owner (setRole actor .admin db)) v := by
  intro r hr ho hl
  have hl : hasSsoLink db v = true := hl
  show hasSecondFactor db v = true
  by_cases hv : v = target
  · rw [hv] at hl ⊢
    simpa [ssoLinkWithoutSecondFactor, hl] using ht
  · -- the second update leaves the account, the first made nobody an owner
    rw [(sameAccount_setRole (Ne.symm hv)).user, setRole, Table.find?_updateAll] at hr
    obtain ⟨r₀, hr₀, rfl⟩ := Option.map_eq_some_iff.mp hr
    unfold withRole at ho
    split_ifs at ho
    exact h r₀ hr₀ ho hl

/-- A completed reset leaves no link. -/
theorem ruleAt_reset {call : ResetCall} : RuleAt (call.write db) call.userId := by
  intro r _ _ hl
  obtain ⟨c, hc, hu, ht⟩ := hasSsoLink_iff.mp hl
  have hgone := (Table.mem_deleteWhere.mp hc).2
  simp [hu, ht] at hgone

end Writing

/-! ## What each transaction relies on -/

/-- The phases whose next step is the commit. -/
def Phase.commits : Phase → Bool
  | .linkInserted _ | .removed .. | .totpTouched _ | .passkeyInserted _ | .transferred ..
  | .resetWritten _ => true
  | .linkSelecting .. | .linkLocked .. | .removalRead .. | .removalSelecting .. | .removalLocked ..
  | .enrolmentChecked _ | .totpInserted _ | .registrationLocked _ | .transferRead ..
  | .transferOwned .. | .actorLocked .. | .targetLocked .. | .resetOwned _ | .resetSpent _
  | .resetLocked _ | .ended => false

/-- What a phase knows of the account it has locked. -/
def Relies : Phase → Accounts → Prop
  | .linkLocked call role factor, db =>
    (∀ r, db.users.find? call.userId = some r → r.role = role) ∧
      (ownerNeedsSecondFactor role factor = false →
        ownerNeedsSecondFactor role (hasSecondFactor db call.userId) = false)
  | .linkInserted call, db => ∀ r, db.users.find? call.userId = some r →
      ownerNeedsSecondFactor r.role (hasSecondFactor db call.userId) = false
  | .removalLocked _ userId credentialId role linked others, db =>
    (∀ r, db.users.find? userId = some r → r.role = role) ∧
      (removalBreaksOwnerSsoRule role linked others = false →
        breaksNow db role userId credentialId = false)
  | .removed _ userId credentialId, db =>
    (∀ r, db.users.find? userId = some r → breaksNow db r.role userId credentialId = false) ∧
      ∃ c ∈ credentialsOf db userId, c.id = credentialId
  | .transferred _ target, db => ssoLinkWithoutSecondFactor db target.id = false
  | .linkSelecting .., _ | .removalRead .., _ | .removalSelecting .., _ | .enrolmentChecked _, _
  | .totpInserted _, _ | .totpTouched _, _ | .registrationLocked _, _ | .passkeyInserted _, _
  | .transferRead .., _ | .transferOwned .., _ | .actorLocked .., _ | .targetLocked .., _
  | .resetOwned _, _ | .resetSpent _, _ | .resetLocked _, _ | .resetWritten _, _ | .ended, _ => True

/-- The tables agree on the row a lock is about. -/
def Agree : RowKey → Accounts → Accounts → Prop
  | .user u, db, db' => SameAccount u db db'
  | .ownerLock, _, _ | .credential _, _, _ | .oneOf .., _, _ | .identity .., _, _
  | .passkeyId _, _, _ => True

theorem relies_congr {p : Phase} {db db' : Accounts}
    (h : ∀ k, Store.Pins locks p k → Agree k db db') (hp : Relies p db) : Relies p db' := by
  have hsame : ∀ u m, (RowKey.user u, m) ∈ locks p → m.pins = true → SameAccount u db db' :=
    fun u m hm hpin => h (.user u) ⟨m, hm, hpin⟩
  cases p with
  | linkLocked call role factor =>
    have hu := hsame call.userId .update (by simp [locks]) rfl
    rw [Relies, hu.user, hu.hasSecondFactor]
    exact hp
  | linkInserted call =>
    have hu := hsame call.userId .update (by simp [locks]) rfl
    rw [Relies, hu.user, hu.hasSecondFactor]
    exact hp
  | removalLocked removal userId credentialId role linked others =>
    have hu := hsame userId .update (by simp [locks]) rfl
    rw [Relies, hu.user, breaksNow, hu.hasSsoLink, hu.othersRemain]
    exact hp
  | removed removal userId credentialId =>
    have hu := hsame userId .update (by simp [locks]) rfl
    simp only [Relies, hu.user, breaksNow, hu.hasSsoLink, hu.othersRemain, hu.credentials]
    exact hp
  | transferred actor target =>
    have hu := hsame target.id .noKeyUpdate (by simp [locks]) rfl
    rw [Relies, ssoLinkWithoutSecondFactor, hu.hasSsoLink, hu.hasSecondFactor]
    exact hp
  | _ => trivial

/-- The credential a removal names is the account's own. -/
theorem selects_false {removal : Removal} {db : Accounts} {u id v : Text}
    (hown : ∃ c ∈ credentialsOf db u, c.id = id) (hv : v ≠ u) :
    ∀ c ∈ db.credentials.rows, c.userId = v → removal.selects u id c = false := by
  intro c hc hcv
  obtain ⟨d, hd, rfl⟩ := hown
  obtain ⟨hd, hdu⟩ := List.mem_filter.mp hd
  have hne : c.id ≠ d.id := by
    intro he
    rw [Table.eq_of_key_eq hc hd he] at hcv
    exact hv (hcv.symm.trans (beq_iff_eq.mp hdu))
  cases removal <;> simp [Removal.selects, hne]

/-- A commit changes only accounts its transaction may change. -/
theorem writes_frame {p : Phase} {db : Accounts} (hp : Relies p db) (hc : p.commits = true)
    (k : RowKey) (hk : ¬ Store.Changes locks p k) : Agree k db (writes p db) := by
  cases k with
  | user v =>
    have hne : ∀ u m, (RowKey.user u, m) ∈ locks p → m.changes = true → u ≠ v := by
      rintro u m hm hc rfl
      exact hk ⟨m, hm, hc⟩
    cases p with
    | linkInserted call => exact sameAccount_insert (hne call.userId .update (by simp [locks]) rfl)
    | removed removal userId credentialId =>
      have hv := hne userId .update (by simp [locks]) rfl
      exact sameAccount_delete (selects_false hp.2 hv.symm)
    | totpTouched call =>
      exact sameAccount_insert (hne call.userId .noKeyUpdate (by simp [locks]) rfl)
    | passkeyInserted call =>
      exact sameAccount_insert (hne call.userId .update (by simp [locks]) rfl)
    | transferred actor target =>
      exact (sameAccount_setRole (hne actor.id .noKeyUpdate (by simp [locks]) rfl)).trans
        (sameAccount_setRole (hne target.id .noKeyUpdate (by simp [locks]) rfl))
    | resetWritten call => exact sameAccount_reset (hne call.userId .update (by simp [locks]) rfl)
    | _ => cases hc
  | _ => trivial

/-- A commit keeps the rule. -/
theorem ownerRule_writes {p : Phase} {db : Accounts} (h : OwnerRule db) (hp : Relies p db) :
    OwnerRule (writes p db) := by
  rw [ownerRule_iff] at h ⊢
  intro v
  cases p with
  | linkInserted call =>
    by_cases hv : call.userId = v
    · subst hv
      exact ruleAt_link hp
    · exact (h v).congr (sameAccount_insert hv)
  | removed removal userId credentialId =>
    by_cases hv : userId = v
    · subst hv
      refine ruleAt_remove (fun c hc => ?_) hp.1
      cases removal <;> simp_all [Removal.selects]
    · exact (h v).congr (sameAccount_delete (selects_false hp.2 (Ne.symm hv)))
  | totpInserted call => exact (h v).insert (by simp [EnrolmentCall.row])
  | totpTouched call => exact (h v).insert (by simp [EnrolmentCall.row])
  | passkeyInserted call => exact (h v).insert (by simp [RegistrationCall.row])
  | transferred actor target => exact ruleAt_transfer (h v) hp
  | resetWritten call =>
    by_cases hv : call.userId = v
    · subst hv
      exact ruleAt_reset
    · exact (h v).congr (sameAccount_reset hv)
  | _ => exact h v

/-! ## Runs -/

/-- What every reachable state keeps. -/
structure Inv (s : State) : Prop where
  exclusive : s.Exclusive locks
  relies : s.Facts Relies
  rule : OwnerRule s.db

section Steps

variable {s : State} {t : ℕ} {p : Phase}

theorem inv_init {db : Accounts} (h : OwnerRule db) : Inv (Store.init db) :=
  ⟨Store.exclusive_init db, Store.facts_init db, h⟩

theorem Inv.put_free (h : Inv s) (hl : locks p = []) (hp : Relies p s.db) : Inv (s.put t p) :=
  ⟨h.exclusive.put_free hl, h.relies.put hp, h.rule⟩

theorem Inv.ended (h : Inv s) : Inv (s.put t .ended) := h.put_free rfl trivial

theorem Inv.enter (h : Inv s) (hp : s.grants locks t (locks p) = true → Relies p s.db) :
    Inv (s.enter locks t p) :=
  ⟨h.exclusive.enter, h.relies.enter hp, by rw [Store.db_enter]; exact h.rule⟩

theorem Inv.lockUser (h : Inv s) {userId : Text} {q : UserRow → Phase}
    (hq : ∀ row, s.db.users.find? userId = some row → s.grants locks t (locks (q row)) = true →
      Relies (q row) s.db) : Inv (lockUser s t userId q) := by
  unfold Sso.lockUser
  cases hf : s.db.users.find? userId with
  | none => exact h.ended
  | some row => exact h.enter (hq row hf)

theorem Inv.insert (h : Inv s) {row : CredentialRow} (hp : Relies p s.db) :
    Inv (insert s t row p) := by
  unfold Sso.insert
  split_ifs
  · exact h.ended
  · exact h.enter fun _ => hp

theorem Inv.commit (h : Inv s) (ht : s.phase? t = some p) (hc : p.commits = true) :
    Inv (s.commit writes t p .ended) := by
  have hp := h.relies t p ht
  refine ⟨h.exclusive.commit rfl, ?_, ownerRule_writes h.rule hp⟩
  exact h.relies.commit h.exclusive ht Agree (fun _ _ _ => True) (writes_frame hp hc)
    (fun _ _ => trivial) (fun _ _ hk _ => relies_congr hk) trivial

/-- The rules were checked with the rows locked. -/
theorem Inv.transfer (h : Inv s) {actor target : UserRow}
    (ht : s.phase? t = some (.targetLocked actor target)) :
    Inv (s.put t (if transferAllowed s.db actor target then .transferred actor target
      else .ended)) := by
  split_ifs with ha
  · refine ⟨h.exclusive.put_held ht fun l hl => hl, h.relies.put ?_, h.rule⟩
    rw [transferAllowed, Bool.and_eq_true, Bool.not_eq_true'] at ha
    exact ha.2
  · exact h.ended

/-- The credential to delete is the account's. -/
theorem target_mem {removal : Removal} {db : Accounts} {userId credentialId id : Text}
    (h : removal.target db userId credentialId = some id) :
    (∃ c ∈ credentialsOf db userId, c.id = id) := by
  cases removal with
  | totp =>
    obtain ⟨c, hc, rfl⟩ := Option.map_eq_some_iff.mp h
    exact ⟨c, List.mem_of_find?_eq_some hc, rfl⟩
  | passkey =>
    unfold Removal.target at h
    split_ifs at h with ha
    cases h
    obtain ⟨c, hc, hs⟩ := List.any_eq_true.mp ha
    simp only [Removal.selects, Bool.and_eq_true, beq_iff_eq] at hs
    exact ⟨c, List.mem_filter.mpr ⟨hc, beq_iff_eq.mpr hs.1.2⟩, hs.1.1⟩

/-- The removal goes on with the account locked. -/
theorem Inv.remove (h : Inv s) {removal : Removal} {userId credentialId : Text} {role : UserRole}
    {linked others : Bool}
    (ht : s.phase? t = some (.removalLocked removal userId credentialId role linked others))
    (hC : CurrentAt s t (.removalLocked removal userId credentialId role linked others))
    (hb : removalBreaksOwnerSsoRule role linked others = false) :
    Inv ((removal.target s.db userId credentialId).elim (s.put t .ended) fun id =>
      s.enter locks t (.removed removal userId id)) := by
  obtain ⟨hrole, hnow⟩ := h.relies _ _ ht
  cases hid : removal.target s.db userId credentialId with
  | none => exact h.ended
  | some id =>
    refine h.enter fun _ => ⟨fun r hr => ?_, target_mem hid⟩
    rw [hrole r hr]
    by_cases he : id = credentialId
    · rw [he]
      exact hnow hb
    · exact hC hb id hid he

/-- One statement of a call. -/
theorem Inv.nextStatement (h : Inv s) (ht : s.phase? t = some p) (hC : CurrentAt s t p)
    (ok : Bool) : Inv (nextStatement s t ok p) := by
  cases p with
  | linkSelecting call factor =>
    refine h.lockUser fun row hf hg => ⟨fun r hr => ?_, ?_⟩
    · rw [hf] at hr
      cases hr
      rfl
    · exact hC row (Table.mem_of_find? hf) (Table.key_of_find? hf) hg
  | linkLocked call role factor =>
    obtain ⟨hrole, hnow⟩ := h.relies _ _ ht
    rw [Sso.nextStatement]
    split_ifs with hr
    · exact h.ended
    · simp only [Bool.or_eq_true, not_or, Bool.not_eq_true] at hr
      refine h.insert fun r hf => ?_
      rw [hrole r hf]
      exact hnow hr.1.2
  | linkInserted call => exact h.commit ht rfl
  | removalRead removal userId credentialId =>
    rw [Sso.nextStatement]
    split_ifs
    · exact h.put_free rfl trivial
    · exact h.ended
  | removalSelecting removal userId credentialId linked others =>
    refine h.lockUser fun row hf hg => ⟨fun r hr => ?_, ?_⟩
    · rw [hf] at hr
      cases hr
      rfl
    · exact hC row (Table.mem_of_find? hf) (Table.key_of_find? hf) hg
  | removalLocked removal userId credentialId role linked others =>
    rw [Sso.nextStatement]
    split_ifs with hr
    · exact h.ended
    · simp only [Bool.or_eq_true, not_or, Bool.not_eq_true] at hr
      exact h.remove ht hC hr.2
  | removed removal userId credentialId => exact h.commit ht rfl
  | enrolmentChecked call =>
    rw [Sso.nextStatement]
    split_ifs
    · exact h.ended
    · exact h.insert trivial
  | totpInserted call => exact h.enter fun _ => trivial
  | totpTouched call => exact h.commit ht rfl
  | registrationLocked call => exact h.insert trivial
  | passkeyInserted call => exact h.commit ht rfl
  | transferRead actorId targetId =>
    rw [Sso.nextStatement]
    split_ifs
    · exact h.enter fun _ => trivial
    · exact h.ended
  | transferOwned actorId targetId => exact h.lockUser fun _ _ _ => trivial
  | actorLocked actor targetId =>
    rw [Sso.nextStatement]
    split_ifs
    · exact h.ended
    · exact h.lockUser fun _ _ _ => trivial
  | targetLocked actor target => exact h.transfer ht
  | transferred actor target => exact h.commit ht rfl
  | resetOwned call =>
    rw [Sso.nextStatement]
    split_ifs
    · exact ⟨h.exclusive.put_held ht fun l hl => hl, h.relies.put trivial, h.rule⟩
    · exact h.ended
  | resetSpent call => exact h.lockUser fun _ _ _ => trivial
  | resetLocked call =>
    rw [Sso.nextStatement]
    split_ifs
    · exact h.ended
    · exact h.enter fun _ => trivial
  | resetWritten call => exact h.commit ht rfl
  | ended => exact h

/-- The first statement of a call decides nothing. -/
theorem Inv.start (h : Inv s) (call : Call) : Inv (start s t call) := by
  cases call with
  | linkSsoIdentity call => exact h.put_free rfl trivial
  | disableTwoFactor userId =>
    rw [Sso.start]
    cases totpCredentialOf s.db userId with
    | none => exact h.ended
    | some c => exact h.put_free rfl trivial
  | deletePasskey userId passkeyId =>
    rw [Sso.start]
    split_ifs
    · exact h.put_free rfl trivial
    · exact h.ended
  | confirmEnrolment call =>
    rw [Sso.start]
    split_ifs
    · exact h.put_free rfl trivial
    · exact h.ended
  | finishRegistration call => exact h.lockUser fun _ _ _ => trivial
  | transferOwnership actorId targetId =>
    rw [Sso.start]
    split_ifs
    · exact h.put_free rfl trivial
    · exact h.ended
  | completeReset call => exact h.enter fun _ => trivial

theorem Inv.step (h : Inv s) {a : Action} (hC : Current s a) : Inv (step s a) := by
  cases a with
  | start t call =>
    rw [Sso.step]
    split_ifs
    · exact h
    · exact h.start call
  | next t ok =>
    rw [Sso.step]
    cases ht : s.phase? t with
    | none => exact h
    | some p => exact h.nextStatement ht (hC p ht) ok
  | fail t =>
    rw [Sso.step]
    split_ifs
    · exact h.ended
    · exact h

end Steps

/-- **The owner rule of SSO.** In every run whose checks decide on current rows, an owner with an
SSO link has a second factor in every committed state. -/
theorem ownerRule_current {db : Accounts} (h : OwnerRule db) {as : List Action}
    (hC : Along step Current (Store.init db) as) : OwnerRule (run step (Store.init db) as).db :=
  (invariant Inv (fun _ _ hi hc => hi.step hc) (inv_init h) hC).rule

/-! ## Three runs -/

/-- An owner whose one second factor is `factor`. -/
def ownerWith (factor : CredentialRow) : Accounts where
  users := ⟨[{ id := "usr_1", email := "o@x.org", role := .owner }], by decide⟩
  credentials := ⟨[factor], by simp⟩

/-- A passkey of the owner. -/
def passkey : CredentialRow :=
  { id := "crd_1", userId := "usr_1", type := .passkey, providerAccountId := some "key" }

/-- An authenticator of the owner. -/
def authenticator : CredentialRow :=
  { id := "crd_1", userId := "usr_1", type := .totp, secretHash := some "v1:a" }

/-- The owner links an identity. -/
def linkCall : LinkCall :=
  { userId := "usr_1", linkId := "crd_2", provider := "oidc:https://idp.org", sub := "17" }

/-- The link is committed before the passkey's removal starts. -/
def linkThenRemove : List Action :=
  [.start 0 (.linkSsoIdentity linkCall), .next 0 true, .next 0 true, .next 0 true,
    .start 1 (.deletePasskey "usr_1" "crd_1"), .next 1 true, .next 1 true, .next 1 true]

/-- The removal's `SELECT ... FOR UPDATE` starts before the link is committed, and waits for it. -/
def linkMeanwhile : List Action :=
  [.start 0 (.linkSsoIdentity linkCall), .next 0 true,
    .start 1 (.deletePasskey "usr_1" "crd_1"), .next 1 true, .next 1 true,
    .next 0 true, .next 0 true, .next 1 true, .next 1 true, .next 1 true]

/-- Between the first read of `disableTwoFactor` and its transaction, the authenticator is replaced
and an identity linked. -/
def replacedMeanwhile : List Action :=
  [.start 0 (.disableTwoFactor "usr_1"),
    .start 1 (.disableTwoFactor "usr_1"), .next 1 true, .next 1 true, .next 1 true, .next 1 true,
    .start 2 (.confirmEnrolment ⟨"usr_1", "crd_3", "v1:b", 7⟩), .next 2 true, .next 2 true,
    .next 2 true, .start 3 (.linkSsoIdentity linkCall), .next 3 true, .next 3 true, .next 3 true,
    .next 0 true, .next 0 true, .next 0 true, .next 0 true]

theorem ownerRule_current_linkThenRemove :
    OwnerRule (run step (Store.init (ownerWith passkey)) linkThenRemove).db ∧
      (run step (Store.init (ownerWith passkey)) linkThenRemove).db.credentials.keys =
        [("crd_1" : Text), "crd_2"] :=
  ⟨ownerRule_current (by decide) (by decide +kernel), by decide +kernel⟩

/-- Both runs start with the rule, and leave the owner with a link and no second factor. -/
theorem not_ownerRule_meanwhile :
    (OwnerRule (ownerWith passkey) ∧
      (run step (Store.init (ownerWith passkey)) linkMeanwhile).db.credentials.rows =
        [linkCall.row] ∧
      ¬ OwnerRule (run step (Store.init (ownerWith passkey)) linkMeanwhile).db) ∧
    (OwnerRule (ownerWith authenticator) ∧
      (run step (Store.init (ownerWith authenticator)) replacedMeanwhile).db.credentials.rows =
        [linkCall.row] ∧
      ¬ OwnerRule (run step (Store.init (ownerWith authenticator)) replacedMeanwhile).db) := by
  refine ⟨⟨by decide, by decide +kernel, by decide +kernel⟩, by decide, by decide +kernel,
    by decide +kernel⟩

end BunMail.Users.Sso
