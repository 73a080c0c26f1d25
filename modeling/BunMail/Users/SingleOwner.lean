import BunMail.Lib.Run
import BunMail.Users.Directory

/-!
# One owner, and no way up but the owner's

What each transaction can do to the accounts, and from it: at most one owner, who stays while there
is one, enabled; and roles that rise only where the owner, or an inviter who may grant them, says
so.
-/

namespace BunMail.Users.Admin

open Sso

/-! ## What a transaction does to the accounts -/

section Accounts

variable {db db' : Directory} {now : Time}

theorem users_of_insertToken {row : TokenRow} (h : insertToken row db = some db') :
    db'.users = db.users := by
  unfold insertToken at h
  split_ifs at h
  cases h
  rfl

theorem users_of_insertCredential {row : CredentialRow} (h : insertCredential row db = some db') :
    db'.users = db.users := by
  unfold insertCredential at h
  split_ifs at h
  cases h
  rfl

theorem users_of_replaceSetupToken {userId : Text} {ids : Minted}
    (h : replaceSetupToken userId ids now db = some db') : db'.users = db.users :=
  (users_of_insertToken h).trans rfl

theorem users_of_replacePassword {userId secretHash : Text} {ids : Minted}
    (h : replacePassword userId secretHash ids db = some db') : db'.users = db.users := by
  obtain ⟨d, hd, rfl⟩ := Option.map_eq_some_iff.mp h
  exact (users_of_insertCredential hd).trans rfl

/-- A new account: its id and its address are new. -/
structure Inserts (row : UserRow) (users users' : Table UserRow.id) : Prop where
  rows : users'.rows = users.rows ++ [row]
  fresh : row.id ∉ users.keys
  oneOwner : row.role = .owner → ∀ u ∈ users.rows, u.role ≠ .owner

theorem inserts_of_insertUser {row : UserRow} (h : insertUser row db = some db') :
    Inserts row db.users db'.users := by
  unfold insertUser at h
  split_ifs at h with hc
  cases h
  simp only [List.any_eq_true, not_exists, not_and, Bool.or_eq_true, Bool.and_eq_true, not_or,
    beq_iff_eq] at hc
  have hk : row.id ∉ db.users.rows.map UserRow.id := by
    intro hm
    obtain ⟨u, hu, hid⟩ := List.mem_map.mp hm
    exact (hc u hu).1.1 hid
  exact ⟨Table.upsertRows_of_notMem hk, hk, fun ho u hu hu' => (hc u hu).2 hu' ho⟩

/-- The accounts after an update of one. -/
def rewriteUsers (id : Text) (f : UserRow → UserRow) (users : Table UserRow.id) : Table UserRow.id :=
  users.updateAll (rewriteUser id f) (rewriteUser_id id f)

/-- Everything an account action can do to the accounts. -/
inductive ActionChange (db : Directory) (now : Time) (actor target : UserRow) :
    AccountInput → Table UserRow.id → Prop
  | role (rawRole : Text) (newRole : UserRole) (ho : actor.role = .owner) (hn : newRole ≠ .owner) :
    ActionChange db now actor target (.changeRole rawRole)
      (rewriteUsers target.id (fun u => { u with role := newRole }) db.users)
  | deactivate : ActionChange db now actor target .deactivate
      (rewriteUsers target.id (fun u => { u with disabledAt := some now }) db.users)
  | reactivate : ActionChange db now actor target .reactivate
      (rewriteUsers target.id (fun u => { u with disabledAt := none }) db.users)
  | remove (confirm : Text) : ActionChange db now actor target (.remove confirm)
      (db.users.deleteWhere (·.id == target.id))
  | transfer (limited passwordOk : Bool) (ho : actor.role = .owner) (ha : target.role = .admin)
    (hd : target.disabled = false) :
    ActionChange db now actor target (.transferOwnership limited passwordOk)
      (rewriteUsers target.id (fun u => { u with role := .owner })
        (rewriteUsers actor.id (fun u => { u with role := .admin }) db.users))
  | resetPassword (ids : Minted) : ActionChange db now actor target (.resetPassword ids) db.users

/-- Everything a transaction can do to the accounts. -/
inductive UserChange (db : Directory) (now : Time) : Call → Table UserRow.id → Prop
  | same (call : Call) : UserChange db now call db.users
  /-- The setup was pending, and the configured address has changed. -/
  | email (email : Text) (ids : Minted) (owner : UserRow) (ho : findOwner db = some owner) :
    UserChange db now (.bootstrapOwner email ids)
      (rewriteUsers owner.id (fun u => { u with email := email }) db.users)
  | bootstrap (email : Text) (ids : Minted) (row : UserRow) (users : Table UserRow.id)
    (ho : findOwner db = none) (hr : row.role = .owner) (hd : row.disabled = false)
    (hi : Inserts row db.users users) : UserChange db now (.bootstrapOwner email ids) users
  | setup (email : Option Text) (ids : Minted) (row : UserRow) (users : Table UserRow.id)
    (ho : findOwner db = none) (hr : row.role = .owner) (hd : row.disabled = false)
    (hi : Inserts row db.users users) : UserChange db now (.issueOwnerSetupLink email ids) users
  | accepted (tokenHash secretHash : Text) (ids : Minted) (r : TokenRow) (row : UserRow)
    (users : Table UserRow.id) (hm : r ∈ db.tokens.rows) (hh : r.tokenHash = tokenHash)
    (ha : acceptableInvite db now r = true)
    (hr : r.role = some row.role) (ho : row.role ≠ .owner) (hd : row.disabled = false)
    (hi : Inserts row db.users users) :
    UserChange db now (.acceptInvitation tokenHash secretHash ids) users
  | action (input : AccountInput) (actor target : UserRow) (users : Table UserRow.id)
    (ha : actor ∈ db.users.rows) (hd : actor.disabled = false) (ht : target ∈ db.users.rows)
    (hr : accountActionRefusal input.action actor target = none)
    (hc : ActionChange db now actor target input users) :
    UserChange db now (.account input actor.id target.id) users

theorem userChange_createOwner {email : Text} {ids : Minted}
    (h : createOwner email ids now db = some db') :
    Inserts { id := ids.userId, email := email, role := .owner } db.users db'.users := by
  obtain ⟨d, hd, h⟩ := Option.bind_eq_some_iff.mp h
  rw [users_of_replaceSetupToken h]
  exact inserts_of_insertUser hd

theorem users_assign : ((findOwner db).elim db fun owner => assignUnownedRecords owner.id db).users =
    db.users := by
  cases findOwner db <;> rfl

theorem userChange_bootstrapOwner {email : Text} {ids : Minted}
    (h : bootstrapOwner email ids now db = some db') :
    UserChange db now (.bootstrapOwner email ids) db'.users := by
  obtain ⟨d, hd, rfl⟩ := Option.map_eq_some_iff.mp h
  rw [users_assign]
  unfold bootstrapOwnerRow at hd
  cases ho : findOwner db with
  | none =>
    simp only [ho] at hd
    split_ifs at hd
    · cases hd
      exact .same _
    · exact .bootstrap email ids _ _ ho rfl rfl (userChange_createOwner hd)
  | some owner =>
    simp only [ho] at hd
    split_ifs at hd
    · cases hd
      exact .same _
    · cases hd
      exact .same _
    · rw [users_of_replaceSetupToken hd]
      exact .email email ids owner ho
    · rw [users_of_replaceSetupToken hd]
      exact .same _

theorem userChange_issueOwnerSetupLink {email : Option Text} {ids : Minted}
    (h : issueOwnerSetupLink email ids now db = some db') :
    UserChange db now (.issueOwnerSetupLink email ids) db'.users := by
  unfold issueOwnerSetupLink at h
  cases ho : findOwner db with
  | some owner =>
    simp only [ho] at h
    rw [users_of_replaceSetupToken h]
    exact .same _
  | none =>
    simp only [ho] at h
    obtain ⟨e, _, h⟩ := Option.bind_eq_some_iff.mp h
    split_ifs at h
    exact .setup email ids _ _ ho rfl rfl (userChange_createOwner h)

theorem users_of_completeOwnerSetup {tokenHash secretHash : Text} {ids : Minted}
    (h : completeOwnerSetup tokenHash secretHash ids now db = some db') : db'.users = db.users := by
  unfold completeOwnerSetup at h
  split at h
  · cases h
    rfl
  · next r _ =>
    cases hu : r.userId with
    | none =>
      rw [hu] at h
      cases h
      rfl
    | some userId =>
      rw [hu] at h
      obtain ⟨d, hd, rfl⟩ := Option.map_eq_some_iff.mp h
      exact (users_of_replacePassword hd).trans rfl

theorem users_of_completePasswordReset {tokenHash secretHash : Text} {ids : Minted}
    (h : completePasswordReset tokenHash secretHash ids now db = some db') :
    db'.users = db.users := by
  unfold completePasswordReset at h
  split at h
  · cases h
    rfl
  · next r _ =>
    cases hu : r.userId with
    | none =>
      rw [hu] at h
      cases h
      rfl
    | some userId =>
      rw [hu] at h
      obtain ⟨d, hd, rfl⟩ := Option.map_eq_some_iff.mp h
      exact (users_of_replacePassword hd).trans rfl

theorem users_of_changePassword {call : ChangeCall} (h : changePassword call now db = some db') :
    db'.users = db.users := by
  unfold changePassword at h
  split_ifs at h
  · cases h
    rfl
  · obtain ⟨d, hd, rfl⟩ := Option.map_eq_some_iff.mp h
    exact (users_of_insertCredential hd).trans rfl

theorem users_of_createInvitation {call : InviteCall} (h : createInvitation call now db = some db') :
    db'.users = db.users := by
  unfold createInvitation at h
  split_ifs at h
  · cases h
    rfl
  · cases h
    rfl
  · cases h
    rfl
  · exact (users_of_insertToken h).trans rfl

theorem userChange_acceptInvitation {tokenHash secretHash : Text} {ids : Minted}
    (h : acceptInvitation tokenHash secretHash ids now db = some db') :
    UserChange db now (.acceptInvitation tokenHash secretHash ids) db'.users := by
  unfold acceptInvitation at h
  split at h
  · cases h
    exact .same _
  · next r hf =>
    obtain ⟨hh, ha⟩ : r.tokenHash = tokenHash ∧ acceptableInvite db now r = true := by
      simpa using List.find?_some hf
    split at h
    · next email role _ hrole =>
      split_ifs at h with ho
      · cases h
        exact .same _
      · cases h
        exact .same _
      · obtain ⟨d, hd, h⟩ := Option.bind_eq_some_iff.mp h
        obtain ⟨e, he, rfl⟩ := Option.map_eq_some_iff.mp h
        have hi := inserts_of_insertUser hd
        have hu : (createSession ids.sessionId ids.userId ids.credentialId
            (revokeOpenInvites email now e)).users = d.users := by
          show e.users = d.users
          exact users_of_insertCredential he
        rw [hu]
        exact .accepted tokenHash secretHash ids r _ _ (List.mem_of_find?_eq_some hf) hh ha hrole ho
          rfl hi
    · cases h
      exact .same _

variable {toLowerCase : Text → Text}

theorem users_changeRole {target : UserRow} {newRole : UserRole} :
    (changeRole target newRole now db).users =
      rewriteUsers target.id (fun u => { u with role := newRole }) db.users := by
  unfold changeRole
  split_ifs <;> rfl

theorem inviteRole?_ne_owner {rawRole : Text} {role : UserRole} (h : inviteRole? rawRole = some role) :
    role ≠ .owner := by
  unfold inviteRole? at h
  split_ifs at h <;> cases h <;> decide

/-- The rules of a role change and of a transfer ask for the owner. -/
theorem actor_owner {actor target : UserRow} {action : AccountAction}
    (h : accountActionRefusal action actor target = none)
    (ha : action = .changeRole ∨ action = .transferOwnership) : actor.role = .owner := by
  unfold accountActionRefusal at h
  rcases ha with rfl | rfl
  · dsimp only at h
    split_ifs at h with _ _ ho
    exact ho
  · dsimp only at h
    split_ifs at h with _ _ ho
    exact not_not.mp ho

theorem target_eligible {actor target : UserRow}
    (h : accountActionRefusal .transferOwnership actor target = none) :
    target.role = .admin ∧ target.disabled = false := by
  unfold accountActionRefusal at h
  dsimp only at h
  split_ifs at h with _ _ _ ht
  exact ht

theorem actionChange_of_mutate {input : AccountInput} {actor target : UserRow}
    (hr : accountActionRefusal input.action actor target = none)
    (h : mutate toLowerCase input now actor target db = some (none, db')) :
    ActionChange db now actor target input db'.users := by
  cases input with
  | changeRole rawRole =>
    rw [mutate] at h
    cases hrole : inviteRole? rawRole with
    | none => simp [hrole] at h
    | some newRole =>
      rw [hrole, Option.elim_some] at h
      split_ifs at h
      · cases h
      · cases h
        rw [users_changeRole]
        exact .role rawRole newRole (actor_owner hr (.inl rfl)) (inviteRole?_ne_owner hrole)
  | deactivate =>
    cases h
    exact .deactivate
  | reactivate =>
    cases h
    exact .reactivate
  | remove confirm =>
    rw [mutate] at h
    split_ifs at h
    · cases h
      exact .remove confirm
    · cases h
  | transferOwnership limited passwordOk =>
    rw [mutate] at h
    split_ifs at h
    · cases h
    · cases h
      obtain ⟨ha, hd⟩ := target_eligible hr
      exact .transfer limited passwordOk (actor_owner hr (.inr rfl)) ha hd
  | resetPassword ids =>
    obtain ⟨d, hd, h⟩ := Option.map_eq_some_iff.mp h
    cases h
    rw [show db'.users = db.users from (users_of_insertToken hd).trans rfl]
    exact .resetPassword ids

/-- A refusal of `mutate` comes before its writes. -/
theorem mutate_refused {input : AccountInput} {actor target : UserRow} {r : AccountRefusal}
    (h : mutate toLowerCase input now actor target db = some (some r, db')) : db' = db := by
  cases input with
  | changeRole rawRole =>
    rw [mutate] at h
    cases hrole : inviteRole? rawRole with
    | none =>
      rw [hrole] at h
      cases h
      rfl
    | some newRole =>
      rw [hrole, Option.elim_some] at h
      split_ifs at h <;> cases h
      rfl
  | deactivate => cases h
  | reactivate => cases h
  | remove confirm =>
    rw [mutate] at h
    split_ifs at h <;> cases h
    rfl
  | transferOwnership limited passwordOk =>
    rw [mutate] at h
    split_ifs at h <;> cases h
    rfl
  | resetPassword ids =>
    obtain ⟨d, _, h⟩ := Option.map_eq_some_iff.mp h
    cases h

/-- What `runAccountAction` lets through. -/
theorem runAccountAction_cases {action : AccountAction} {actorId targetId : Text} {answer : Answer}
    {m : UserRow → UserRow → Directory → Option (Answer × Directory)}
    (h : runAccountAction action actorId targetId m db = some (answer, db')) :
    (answer ≠ none ∧ db' = db) ∨ ∃ actor target, db.users.find? actorId = some actor ∧
      db.users.find? targetId = some target ∧ actor.disabled = false ∧
      accountActionRefusal action actor target = none ∧ m actor target db = some (answer, db') := by
  unfold runAccountAction at h
  cases ha : db.users.find? actorId with
  | none =>
    simp only [ha] at h
    cases h
    exact .inl ⟨by simp, rfl⟩
  | some actor =>
    simp only [ha] at h
    split_ifs at h with hd
    · cases h
      exact .inl ⟨by simp, rfl⟩
    · cases ht : db.users.find? targetId with
      | none =>
        simp only [ht] at h
        cases h
        exact .inl ⟨by simp, rfl⟩
      | some target =>
        simp only [ht] at h
        cases hr : accountActionRefusal action actor target with
        | none =>
          rw [hr] at h
          exact .inr ⟨actor, target, rfl, rfl, by simpa using hd, hr, h⟩
        | some refusal =>
          rw [hr] at h
          cases h
          exact .inl ⟨by simp, rfl⟩

theorem accountAction_cases {input : AccountInput} {actorId targetId : Text} {answer : Answer}
    (h : accountAction toLowerCase input actorId targetId now db = some (answer, db')) :
    (answer ≠ none ∧ db' = db) ∨ ∃ actor target, db.users.find? actorId = some actor ∧
      db.users.find? targetId = some target ∧ actor.disabled = false ∧
      accountActionRefusal input.action actor target = none ∧
      mutate toLowerCase input now actor target db = some (answer, db') := by
  unfold accountAction at h
  cases he : earlyRefusal input actorId targetId db with
  | none =>
    rw [he] at h
    exact runAccountAction_cases h
  | some refusal =>
    rw [he] at h
    cases h
    exact .inl ⟨by simp, rfl⟩

theorem accountAction_refused {input : AccountInput} {actorId targetId : Text} {r : AccountRefusal}
    (h : accountAction toLowerCase input actorId targetId now db = some (some r, db')) : db' = db := by
  rcases accountAction_cases h with ⟨_, h⟩ | ⟨actor, target, _, _, _, _, h⟩
  · exact h
  · exact mutate_refused h

theorem userChange_account {input : AccountInput} {actorId targetId : Text} {answer : Answer}
    (h : accountAction toLowerCase input actorId targetId now db = some (answer, db')) :
    UserChange db now (.account input actorId targetId) db'.users := by
  cases answer with
  | some r =>
    rw [accountAction_refused h]
    exact .same _
  | none =>
    rcases accountAction_cases h with ⟨hn, _⟩ | ⟨actor, target, ha, ht, hd, hr, h⟩
    · exact absurd rfl hn
    · rw [← show actor.id = actorId from Table.key_of_find? ha,
        ← show target.id = targetId from Table.key_of_find? ht]
      exact .action input actor target _ (Table.mem_of_find? ha) hd (Table.mem_of_find? ht) hr
        (actionChange_of_mutate hr h)

/-- **What a transaction does to the accounts.** -/
theorem userChange_run {call : Call} (h : call.run toLowerCase now db = some db') :
    UserChange db now call db'.users := by
  cases call with
  | bootstrapOwner email ids => exact userChange_bootstrapOwner h
  | issueOwnerSetupLink ownerEmail ids => exact userChange_issueOwnerSetupLink h
  | completeOwnerSetup tokenHash secretHash ids =>
    rw [users_of_completeOwnerSetup h]
    exact .same _
  | account input actorId targetId =>
    obtain ⟨⟨answer, d⟩, hd, rfl⟩ := Option.map_eq_some_iff.mp h
    exact userChange_account hd
  | createInvitation call =>
    rw [users_of_createInvitation h]
    exact .same _
  | acceptInvitation tokenHash secretHash ids => exact userChange_acceptInvitation h
  | completePasswordReset tokenHash secretHash ids =>
    rw [users_of_completePasswordReset h]
    exact .same _
  | changePassword call =>
    rw [users_of_changePassword h]
    exact .same _

end Accounts

/-! ## The owner -/

/-- The accounts with role owner. -/
def owners (db : Directory) : List UserRow := db.users.rows.filter (·.role == .owner)

/-- All owners are one account, and it is enabled. -/
structure OneOwner (users : Table UserRow.id) : Prop where
  unique : ∀ u ∈ users.rows, ∀ v ∈ users.rows, u.role = .owner → v.role = .owner → u.id = v.id
  enabled : ∀ u ∈ users.rows, u.role = .owner → u.disabled = false

/-- The owners before a step keep their accounts, and there is an owner after it. -/
def OwnerKept (users users' : Table UserRow.id) : Prop :=
  ∀ u ∈ users.rows, u.role = .owner →
    (∃ u' ∈ users'.rows, u'.id = u.id ∧ u'.disabled = u.disabled) ∧ ∃ o ∈ users'.rows, o.role = .owner

section Changes

variable {db : Directory} {now : Time} {users users' : Table UserRow.id} {id : Text}
  {f : UserRow → UserRow} {row u : UserRow}

theorem findOwner_eq_none : findOwner db = none ↔ ∀ u ∈ db.users.rows, u.role ≠ .owner := by
  simp [findOwner]

theorem mem_rewriteUsers : u ∈ (rewriteUsers id f users).rows ↔
    ∃ u₀ ∈ users.rows, rewriteUser id f u₀ = u := List.mem_map

theorem rewriteUser_of_ne (h : u.id ≠ id) : rewriteUser id f u = u := if_neg h

theorem rewriteUser_of_eq (h : u.id = id) : rewriteUser id f u = { f u with id := u.id } := if_pos h

theorem mem_inserts (h : Inserts row users users') : u ∈ users'.rows ↔ u ∈ users.rows ∨ u = row := by
  rw [h.rows]
  simp

theorem ownerKept_of_subset (h : ∀ u ∈ users.rows, u.role = .owner → u ∈ users'.rows) :
    OwnerKept users users' :=
  fun u hu ho => ⟨⟨u, h u hu ho, rfl, rfl⟩, u, h u hu ho, ho⟩

/-- A change of a row that is no owner after it. -/
theorem OneOwner.rewrite {t : UserRow} (h : OneOwner users) (ht : t ∈ users.rows)
    (hf : (f t).role ≠ .owner) : OneOwner (rewriteUsers t.id f users) := by
  have hold : ∀ u ∈ (rewriteUsers t.id f users).rows, u.role = .owner → u ∈ users.rows := by
    intro u hu hr
    obtain ⟨u₀, hu₀, rfl⟩ := mem_rewriteUsers.mp hu
    by_cases hid : u₀.id = t.id
    · rw [Table.eq_of_key_eq hu₀ ht hid, rewriteUser_of_eq rfl] at hr
      exact absurd hr hf
    · rw [rewriteUser_of_ne hid]
      exact hu₀
  exact ⟨fun u hu v hv hu' hv' => h.unique u (hold u hu hu') v (hold v hv hv') hu' hv',
    fun u hu hu' => h.enabled u (hold u hu hu') hu'⟩

theorem ownerKept_rewrite {t : UserRow} (ht : t ∈ users.rows) (ho : t.role ≠ .owner) :
    OwnerKept users (rewriteUsers t.id f users) := by
  refine ownerKept_of_subset fun u hu hr => mem_rewriteUsers.mpr ⟨u, hu, rewriteUser_of_ne ?_⟩
  intro hid
  rw [Table.eq_of_key_eq hu ht hid] at hr
  exact ho hr

theorem OneOwner.insert (h : OneOwner users) (hi : Inserts row users users')
    (hd : row.disabled = false) : OneOwner users' := by
  constructor
  · intro u hu v hv hur hvr
    rcases (mem_inserts hi).mp hu with hu | rfl
    · rcases (mem_inserts hi).mp hv with hv | rfl
      · exact h.unique u hu v hv hur hvr
      · exact absurd hur (hi.oneOwner hvr u hu)
    · rcases (mem_inserts hi).mp hv with hv | rfl
      · exact absurd hvr (hi.oneOwner hur v hv)
      · rfl
  · intro u hu hur
    rcases (mem_inserts hi).mp hu with hu | rfl
    · exact h.enabled u hu hur
    · exact hd

theorem ownerKept_insert (hi : Inserts row users users') : OwnerKept users users' :=
  ownerKept_of_subset fun _ hu _ => (mem_inserts hi).mpr (.inl hu)

/-- A change that leaves roles and deactivations. -/
theorem OneOwner.email (h : OneOwner users) (email : Text) :
    OneOwner (rewriteUsers id (fun u => { u with email := email }) users) := by
  have hold : ∀ u ∈ (rewriteUsers id (fun u => { u with email := email }) users).rows,
      ∃ u₀ ∈ users.rows, u₀.id = u.id ∧ u₀.role = u.role ∧ u₀.disabled = u.disabled := by
    intro u hu
    obtain ⟨u₀, hu₀, rfl⟩ := mem_rewriteUsers.mp hu
    refine ⟨u₀, hu₀, (rewriteUser_id _ _ _).symm, ?_⟩
    unfold rewriteUser
    split_ifs <;> exact ⟨rfl, rfl⟩
  constructor
  · intro u hu v hv hur hvr
    obtain ⟨u₀, hu₀, hid, hr, _⟩ := hold u hu
    obtain ⟨v₀, hv₀, hid', hr', _⟩ := hold v hv
    rw [← hid, ← hid']
    exact h.unique u₀ hu₀ v₀ hv₀ (hr.trans hur) (hr'.trans hvr)
  · intro u hu hur
    obtain ⟨u₀, hu₀, _, hr, hd⟩ := hold u hu
    rw [← hd]
    exact h.enabled u₀ hu₀ (hr.trans hur)

theorem ownerKept_email (email : Text) :
    OwnerKept users (rewriteUsers id (fun u => { u with email := email }) users) := by
  intro u hu ho
  have hm : rewriteUser id (fun u => { u with email := email }) u ∈
      (rewriteUsers id (fun u => { u with email := email }) users).rows :=
    mem_rewriteUsers.mpr ⟨u, hu, rfl⟩
  refine ⟨⟨_, hm, rewriteUser_id _ _ _, ?_⟩, _, hm, ?_⟩ <;> unfold rewriteUser <;> split_ifs
  · rfl
  · rfl
  · exact ho
  · exact ho

/-- What a transfer makes of a row. -/
theorem mem_transfer {actor target : UserRow} (hne : actor.id ≠ target.id)
    (hu : u ∈ (rewriteUsers target.id (fun u => { u with role := .owner })
      (rewriteUsers actor.id (fun u => { u with role := .admin }) users)).rows) :
    ∃ u₀ ∈ users.rows, u.id = u₀.id ∧ u.disabled = u₀.disabled ∧
      (u₀.id = target.id ∧ u.role = .owner ∨ u₀.id = actor.id ∧ u.role = .admin ∨
        u₀.id ≠ target.id ∧ u₀.id ≠ actor.id ∧ u = u₀) := by
  obtain ⟨u₁, hu₁, rfl⟩ := mem_rewriteUsers.mp hu
  obtain ⟨u₀, hu₀, rfl⟩ := mem_rewriteUsers.mp hu₁
  refine ⟨u₀, hu₀, by rw [rewriteUser_id, rewriteUser_id], ?_⟩
  by_cases ha : u₀.id = actor.id
  · have ht : u₀.id ≠ target.id := fun ht => hne (ha.symm.trans ht)
    rw [rewriteUser_of_ne (by rw [rewriteUser_id]; exact ht), rewriteUser_of_eq ha]
    exact ⟨rfl, .inr (.inl ⟨ha, rfl⟩)⟩
  · rw [rewriteUser_of_ne ha]
    by_cases ht : u₀.id = target.id
    · rw [rewriteUser_of_eq ht]
      exact ⟨rfl, .inl ⟨ht, rfl⟩⟩
    · rw [rewriteUser_of_ne ht]
      exact ⟨rfl, .inr (.inr ⟨ht, ha, rfl⟩)⟩

theorem OneOwner.transfer {actor target : UserRow} (h : OneOwner users) (ha : actor ∈ users.rows)
    (ht : target ∈ users.rows) (ho : actor.role = .owner) (hd : target.disabled = false)
    (hne : actor.id ≠ target.id) :
    OneOwner (rewriteUsers target.id (fun u => { u with role := .owner })
      (rewriteUsers actor.id (fun u => { u with role := .admin }) users)) := by
  -- every owner after the transfer is its target
  have htarget : ∀ u ∈ (rewriteUsers target.id (fun u => { u with role := .owner })
      (rewriteUsers actor.id (fun u => { u with role := .admin }) users)).rows,
      u.role = .owner → u.id = target.id ∧ u.disabled = false := by
    intro u hu hr
    obtain ⟨u₀, hu₀, hid, hdis, ⟨hut, _⟩ | ⟨_, hadmin⟩ | ⟨_, hua, rfl⟩⟩ := mem_transfer hne hu
    · rw [Table.eq_of_key_eq hu₀ ht hut] at hid hdis
      exact ⟨hid, hdis.trans hd⟩
    · rw [hr] at hadmin
      cases hadmin
    · exact absurd (h.unique u hu₀ actor ha hr ho) hua
  exact ⟨fun u hu v hv hur hvr => (htarget u hu hur).1.trans (htarget v hv hvr).1.symm,
    fun u hu hur => (htarget u hu hur).2⟩

theorem ownerKept_transfer {actor target : UserRow} (ht : target ∈ users.rows) :
    OwnerKept users (rewriteUsers target.id (fun u => { u with role := .owner })
      (rewriteUsers actor.id (fun u => { u with role := .admin }) users)) := by
  intro u hu _
  have hm : ∀ v ∈ users.rows, rewriteUser target.id (fun u => { u with role := .owner })
      (rewriteUser actor.id (fun u => { u with role := .admin }) v) ∈
        (rewriteUsers target.id (fun u => { u with role := .owner })
          (rewriteUsers actor.id (fun u => { u with role := .admin }) users)).rows :=
    fun v hv => mem_rewriteUsers.mpr ⟨_, mem_rewriteUsers.mpr ⟨v, hv, rfl⟩, rfl⟩
  refine ⟨⟨_, hm u hu, by rw [rewriteUser_id, rewriteUser_id], ?_⟩, _, hm target ht, ?_⟩
  · unfold rewriteUser
    split_ifs <;> rfl
  · rw [rewriteUser_of_eq (rewriteUser_id _ _ _)]

/-- An allowed action is on another account, which is no owner. -/
theorem parties_of_allowed {action : AccountAction} {actor target : UserRow}
    (h : accountActionRefusal action actor target = none) :
    actor.id ≠ target.id ∧ target.role ≠ .owner := by
  constructor
  · intro hid
    simp [accountActionRefusal, hid] at h
  · intro ho
    unfold accountActionRefusal at h
    rw [if_pos ho] at h
    split_ifs at h

theorem OneOwner.change {call : Call} (h : OneOwner db.users)
    (hc : UserChange db now call users') : OneOwner users' ∧ OwnerKept db.users users' := by
  cases hc with
  | same => exact ⟨h, ownerKept_of_subset fun u hu _ => hu⟩
  | email email ids owner ho => exact ⟨h.email email, ownerKept_email email⟩
  | bootstrap email ids row users ho hr hd hi => exact ⟨h.insert hi hd, ownerKept_insert hi⟩
  | setup email ids row users ho hr hd hi => exact ⟨h.insert hi hd, ownerKept_insert hi⟩
  | accepted tokenHash secretHash ids r row users hm hh ha hr ho hd hi =>
    exact ⟨h.insert hi hd, ownerKept_insert hi⟩
  | action input actor target users ha hd ht hr hc =>
    obtain ⟨hne, hto⟩ := parties_of_allowed hr
    cases hc with
    | role rawRole newRole ho hn => exact ⟨h.rewrite ht hn, ownerKept_rewrite ht hto⟩
    | deactivate => exact ⟨h.rewrite ht hto, ownerKept_rewrite ht hto⟩
    | reactivate => exact ⟨h.rewrite ht hto, ownerKept_rewrite ht hto⟩
    | remove confirm =>
      refine ⟨⟨fun u hu v hv => ?_, fun u hu => ?_⟩, ownerKept_of_subset fun u hu ho => ?_⟩
      · exact h.unique u (Table.mem_deleteWhere.mp hu).1 v (Table.mem_deleteWhere.mp hv).1
      · exact h.enabled u (Table.mem_deleteWhere.mp hu).1
      · refine Table.mem_deleteWhere.mpr ⟨hu, beq_false_of_ne fun hid => ?_⟩
        rw [Table.eq_of_key_eq hu ht hid] at ho
        exact hto ho
    | transfer limited passwordOk ho hadmin hdis =>
      exact ⟨h.transfer ha ht ho hdis hne, ownerKept_transfer ht⟩
    | resetPassword ids => exact ⟨h, ownerKept_of_subset fun u hu _ => hu⟩

end Changes

/-! ## Roles -/

/-- The owner changes the role of `u`, or makes it the next owner. -/
def MayRaise (db : Directory) (call : Call) (u : UserRow) : Prop :=
  ∃ actor ∈ db.users.rows, actor.role = .owner ∧ actor.disabled = false ∧
    ((∃ rawRole, call = .account (.changeRole rawRole) actor.id u.id) ∨
      ∃ limited passwordOk, call = .account (.transferOwnership limited passwordOk) actor.id u.id ∧
        u.role = .admin ∧ u.disabled = false)

/-- The account `u` is that of an invitation whose inviter is enabled and may grant its role, or the
first owner. -/
def MayCreate (db : Directory) (now : Time) (call : Call) (u : UserRow) : Prop :=
  (∃ tokenHash secretHash ids, call = .acceptInvitation tokenHash secretHash ids ∧
    ∃ r ∈ db.tokens.rows, r.tokenHash = tokenHash ∧ openInvite r = true ∧ now < r.expiresAt ∧
      r.role = some u.role ∧ ∃ inviter ∈ db.users.rows, r.invitedBy = some inviter.id ∧
        inviter.disabled = false ∧ u.role ∈ grantableRoles inviter.role) ∨
  (u.role = .owner ∧ owners db = [] ∧
    ((∃ email ids, call = .bootstrapOwner email ids) ∨
      ∃ email ids, call = .issueOwnerSetupLink email ids))

section Roles

variable {db : Directory} {now : Time} {call : Call} {users : Table UserRow.id} {u u' : UserRow}

theorem role_rewriteUser {id : Text} {f : UserRow → UserRow} (hf : ∀ u, (f u).role = u.role) :
    (rewriteUser id f u).role = u.role := by
  unfold rewriteUser
  split_ifs
  · exact hf u
  · rfl

theorem role_rises_action {input : AccountInput} {actor target : UserRow}
    (ha : actor ∈ db.users.rows) (hd : actor.disabled = false) (ht : target ∈ db.users.rows)
    (hr : accountActionRefusal input.action actor target = none)
    (hc : ActionChange db now actor target input users) (hu : u ∈ db.users.rows)
    (hu' : u' ∈ users.rows) (hid : u'.id = u.id) (hlt : u.role.rank < u'.role.rank) :
    MayRaise db (.account input actor.id target.id) u := by
  -- a change that leaves the roles raises none
  have hsame : ∀ f : UserRow → UserRow, u' ∈ (rewriteUsers target.id f db.users).rows →
      (∀ u, (f u).role = u.role) → False := by
    intro f hm hf
    obtain ⟨u₀, hu₀, rfl⟩ := mem_rewriteUsers.mp hm
    rw [rewriteUser_id] at hid
    rw [role_rewriteUser hf, Table.eq_of_key_eq hu₀ hu hid] at hlt
    omega
  cases hc with
  | role rawRole newRole ho hn =>
    obtain ⟨u₀, hu₀, rfl⟩ := mem_rewriteUsers.mp hu'
    rw [rewriteUser_id] at hid
    obtain rfl := Table.eq_of_key_eq hu₀ hu hid
    by_cases htid : u₀.id = target.id
    · rw [← htid]
      exact ⟨actor, ha, ho, hd, .inl ⟨rawRole, rfl⟩⟩
    · rw [rewriteUser_of_ne htid] at hlt
      omega
  | deactivate => exact (hsame _ hu' fun _ => rfl).elim
  | reactivate => exact (hsame _ hu' fun _ => rfl).elim
  | remove confirm =>
    rw [Table.eq_of_key_eq (Table.mem_deleteWhere.mp hu').1 hu hid] at hlt
    omega
  | transfer limited passwordOk ho hadmin hdis =>
    have hne := (parties_of_allowed hr).1
    obtain ⟨u₀, hu₀, hid₀, _, ⟨htid, _⟩ | ⟨haid, hrole⟩ | ⟨_, _, rfl⟩⟩ := mem_transfer hne hu'
    · obtain rfl := Table.eq_of_key_eq hu₀ hu (hid₀.symm.trans hid)
      obtain rfl := Table.eq_of_key_eq hu₀ ht htid
      exact ⟨actor, ha, ho, hd, .inr ⟨limited, passwordOk, rfl, hadmin, hdis⟩⟩
    · obtain rfl := Table.eq_of_key_eq hu₀ hu (hid₀.symm.trans hid)
      rw [Table.eq_of_key_eq hu₀ ha haid, ho, hrole] at hlt
      cases hlt with
      | step h => cases h
    · rw [Table.eq_of_key_eq hu₀ hu hid] at hlt
      omega
  | resetPassword ids =>
    rw [Table.eq_of_key_eq hu' hu hid] at hlt
    omega

theorem role_rises (hc : UserChange db now call users) (hu : u ∈ db.users.rows)
    (hu' : u' ∈ users.rows) (hid : u'.id = u.id) (hlt : u.role.rank < u'.role.rank) :
    MayRaise db call u := by
  have hold : u' ∈ db.users.rows → False := by
    intro hm
    rw [Table.eq_of_key_eq hm hu hid] at hlt
    omega
  have hnew : ∀ {row : UserRow}, Inserts row db.users users → False := by
    intro row hi
    rcases (mem_inserts hi).mp hu' with hm | rfl
    · exact hold hm
    · exact hi.fresh (List.mem_map.mpr ⟨u, hu, hid.symm⟩)
  cases hc with
  | same => exact (hold hu').elim
  | email email ids owner ho =>
    obtain ⟨u₀, hu₀, rfl⟩ := mem_rewriteUsers.mp hu'
    rw [rewriteUser_id] at hid
    have hrole : (rewriteUser owner.id (fun u => { u with email := email }) u₀).role = u₀.role :=
      role_rewriteUser fun _ => rfl
    rw [hrole, Table.eq_of_key_eq hu₀ hu hid] at hlt
    omega
  | bootstrap email ids row users ho hr hd hi => exact (hnew hi).elim
  | setup email ids row users ho hr hd hi => exact (hnew hi).elim
  | accepted tokenHash secretHash ids r row users hm hh ha hr ho hd hi => exact (hnew hi).elim
  | action input actor target users ha hd ht hr hc =>
    exact role_rises_action ha hd ht hr hc hu hu' hid hlt

theorem owners_eq_nil_of_findOwner (h : findOwner db = none) : owners db = [] := by
  rw [findOwner_eq_none] at h
  exact List.filter_eq_nil_iff.mpr fun u hu => by simpa using h u hu

theorem mem_of_rewriteUsers {id : Text} {f : UserRow → UserRow} {t : Table UserRow.id}
    (h : u.id ∈ (rewriteUsers id f t).keys) : u.id ∈ t.keys := by
  rwa [rewriteUsers, Table.keys_updateAll] at h

theorem account_created (hc : UserChange db now call users) (hu' : u' ∈ users.rows)
    (hn : u'.id ∉ db.users.keys) : MayCreate db now call u' := by
  have hk : u'.id ∈ users.keys := List.mem_map_of_mem hu'
  have hnew : ∀ {row : UserRow}, Inserts row db.users users → u' = row := by
    intro row hi
    rcases (mem_inserts hi).mp hu' with hm | rfl
    · exact absurd (List.mem_map_of_mem hm) hn
    · rfl
  cases hc with
  | same => exact absurd hk hn
  | email email ids owner ho => exact absurd (mem_of_rewriteUsers hk) hn
  | bootstrap email ids row users ho hr hd hi =>
    rw [hnew hi]
    exact .inr ⟨hr, owners_eq_nil_of_findOwner ho, .inl ⟨email, ids, rfl⟩⟩
  | setup email ids row users ho hr hd hi =>
    rw [hnew hi]
    exact .inr ⟨hr, owners_eq_nil_of_findOwner ho, .inr ⟨email, ids, rfl⟩⟩
  | accepted tokenHash secretHash ids r row users hm hh ha hr ho hd hi =>
    rw [hnew hi]
    simp only [acceptableInvite, inviterStillGrants, Bool.and_eq_true, decide_eq_true_eq,
      Option.any_eq_true, Option.bind_eq_some_iff, Bool.not_eq_true'] at ha
    obtain ⟨⟨hopen, hexp⟩, inviter, ⟨i, hi', hf⟩, hdis, role, hrole, hgrant⟩ := ha
    rw [hr, Option.some.injEq] at hrole
    subst hrole
    have hid : inviter.id = i := Table.key_of_find? hf
    refine .inl ⟨tokenHash, secretHash, ids, rfl, r, hm, hh, hopen, hexp, hr, inviter,
      Table.mem_of_find? hf, by rw [hid]; exact hi', hdis, ?_⟩
    simpa [canManage] using hgrant
  | action input actor target users ha hd ht hr hc =>
    cases hc with
    | role rawRole newRole ho hn' => exact absurd (mem_of_rewriteUsers hk) hn
    | deactivate => exact absurd (mem_of_rewriteUsers hk) hn
    | reactivate => exact absurd (mem_of_rewriteUsers hk) hn
    | remove confirm =>
      exact absurd (List.mem_map_of_mem (Table.mem_deleteWhere.mp hu').1) hn
    | transfer limited passwordOk ho hadmin hdis =>
      exact absurd (mem_of_rewriteUsers (mem_of_rewriteUsers hk)) hn
    | resetPassword ids => exact absurd hk hn

end Roles

/-! ## Runs -/

/-- What the accounts of a reachable directory keep to, then and later. -/
structure OwnerProtected (toLowerCase : Text → Text) (db : Directory) : Prop where
  atMostOne : (owners db).length ≤ 1
  enabled : ∀ u ∈ owners db, u.disabled = false
  stays : ∀ as, owners db ≠ [] → (owners (Run.run (step toLowerCase) db as)).length = 1
  kept : ∀ a, ∀ u ∈ owners db, ∃ u' ∈ (step toLowerCase db a).users.rows,
    u'.id = u.id ∧ u'.disabled = false
  rises : ∀ now call, ∀ u ∈ db.users.rows, ∀ u' ∈ (step toLowerCase db (now, call)).users.rows,
    u'.id = u.id → u.role.rank < u'.role.rank → MayRaise db call u
  created : ∀ now call, ∀ u' ∈ (step toLowerCase db (now, call)).users.rows,
    u'.id ∉ db.users.keys → MayCreate db now call u'
  refused : ∀ input actorId targetId now r db',
    accountAction toLowerCase input actorId targetId now db = some (some r, db') → db' = db

section Runs

variable {toLowerCase : Text → Text} {db : Directory}

theorem userChange_step (db : Directory) (a : Time × Call) :
    UserChange db a.1 a.2 (step toLowerCase db a).users := by
  unfold step
  cases h : a.2.run toLowerCase a.1 db with
  | none => exact .same _
  | some db' => exact userChange_run h

theorem mem_owners {u : UserRow} : u ∈ owners db ↔ u ∈ db.users.rows ∧ u.role = .owner := by
  simp [owners]

theorem OneOwner.length_owners (h : OneOwner db.users) : (owners db).length ≤ 1 := by
  have hnodup : (owners db).Nodup := (List.Nodup.of_map _ db.users.unique).filter _
  rcases ho : owners db with _ | ⟨u, _ | ⟨v, rest⟩⟩
  · simp
  · simp
  · have hu := mem_owners.mp (show u ∈ owners db by simp [ho])
    have hv := mem_owners.mp (show v ∈ owners db by simp [ho])
    have := Table.eq_of_key_eq hu.1 hv.1 (h.unique u hu.1 v hv.1 hu.2 hv.2)
    rw [ho, this] at hnodup
    simp at hnodup

theorem OneOwner.run (h : OneOwner db.users) (as : List (Time × Call)) :
    OneOwner (Run.run (step toLowerCase) db as).users :=
  Run.foldl_invariant (fun d : Directory => OneOwner d.users)
    (fun _ a hd => (hd.change (userChange_step _ a)).1) h as

theorem owners_ne_nil (ho : owners db ≠ []) (h : OneOwner db.users) (a : Time × Call) :
    owners (step toLowerCase db a) ≠ [] := by
  obtain ⟨u, hu⟩ := List.exists_mem_of_ne_nil _ ho
  obtain ⟨hm, hr⟩ := mem_owners.mp hu
  obtain ⟨_, o, hom, hor⟩ := (h.change (userChange_step db a)).2 u hm hr
  exact List.ne_nil_of_mem (mem_owners.mpr ⟨hom, hor⟩)

theorem owners_run_ne_nil (h : OneOwner db.users) (ho : owners db ≠ []) (as : List (Time × Call)) :
    owners (Run.run (step toLowerCase) db as) ≠ [] :=
  (Run.foldl_invariant (fun d : Directory => OneOwner d.users ∧ owners d ≠ [])
    (fun d a hd => ⟨(hd.1.change (userChange_step d a)).1, owners_ne_nil hd.2 hd.1 a⟩)
    ⟨h, ho⟩ as).2

end Runs

/-- **One owner.** Of every run from the empty directory. -/
theorem ownerProtected_run (toLowerCase : Text → Text) (as : List (Time × Call)) :
    OwnerProtected toLowerCase (Run.run (step toLowerCase) Directory.empty as) := by
  have hempty : OneOwner Directory.empty.users :=
    ⟨fun u hu => absurd hu List.not_mem_nil, fun u hu => absurd hu List.not_mem_nil⟩
  have h : OneOwner (Run.run (step toLowerCase) Directory.empty as).users := hempty.run as
  constructor
  · exact h.length_owners
  · intro u hu
    exact h.enabled u (mem_owners.mp hu).1 (mem_owners.mp hu).2
  · intro bs ho
    refine le_antisymm (h.run bs).length_owners ?_
    exact List.length_pos_of_ne_nil (owners_run_ne_nil h ho bs)
  · intro a u hu
    obtain ⟨hm, hr⟩ := mem_owners.mp hu
    obtain ⟨⟨u', hu', hid, hd⟩, _⟩ := (h.change (userChange_step _ a)).2 u hm hr
    exact ⟨u', hu', hid, hd.trans (h.enabled u hm hr)⟩
  · intro now call u hu u' hu'
    exact role_rises (userChange_step _ (now, call)) hu hu'
  · intro now call u' hu'
    exact account_created (userChange_step _ (now, call)) hu'
  · intro input actorId targetId now r db'
    exact accountAction_refused

/-- The owner invites an admin, and hands ownership over. -/
def handedOver : List (Time × Call) :=
  [(0, .bootstrapOwner "o@x.org" ⟨"usr_1", "", "utk_1", "h1", ""⟩),
    (1, .createInvitation ⟨"usr_1", .owner, "a@x.org", .admin, 7, ⟨"", "", "utk_2", "h2", ""⟩⟩),
    (2, .acceptInvitation "h2" "p" ⟨"usr_2", "crd_2", "", "", "ses_2"⟩),
    (3, .account (.transferOwnership false true) "usr_1" "usr_2")]

example : (Run.run (step id) Directory.empty handedOver).users.rows.map (·.role) =
    [.admin, .owner] := by decide +kernel

end BunMail.Users.Admin
