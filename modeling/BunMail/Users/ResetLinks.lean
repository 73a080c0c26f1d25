import BunMail.Users.Tokens

/-!
# Password reset links

A reset link works while it is open, not expired, and its issuer manages its account.  Roles and
deactivations go up and down, so a link that the third part stops could come back.  It never does:
an open link's issuer always manages its account, or is deleted, because every action that ends it
revokes the links it is about.
-/

namespace BunMail.Users.Admin

open Sso Run

/-! ## Who manages whom -/

/-- The account `i` manages the account `t`. -/
def Manages (users : Table UserRow.id) (i t : Text) : Prop :=
  ∃ issuer target, users.find? i = some issuer ∧ users.find? t = some target ∧ i ≠ t ∧
    issuer.disabled = false ∧ target.disabled = false ∧ canManage issuer.role target.role = true

/-- What the open reset links of a reachable directory keep to. -/
structure LinksManaged (db : Directory) : Prop where
  managed : ∀ r ∈ db.tokens.rows, openReset r = true → ∀ i, r.invitedBy = some i →
    ∃ t, r.userId = some t ∧ Manages db.users i t
  one : ∀ r ∈ db.tokens.rows, ∀ r' ∈ db.tokens.rows, openReset r = true → openReset r' = true →
    r.userId = r'.userId → r.id = r'.id

section Managing

variable {db db' : Directory} {now : Time} {users users' : Table UserRow.id} {i t id : Text}
  {f : UserRow → UserRow} {r : TokenRow}

theorem issuerStillManages_iff : issuerStillManages db r = true ↔
    ∃ i t, r.invitedBy = some i ∧ r.userId = some t ∧ Manages db.users i t := by
  simp only [issuerStillManages, Option.any_eq_true, Option.bind_eq_some_iff, Bool.and_eq_true,
    bne_iff_ne, Bool.not_eq_true']
  constructor
  · rintro ⟨issuer, ⟨i, hi, hfi⟩, target, ⟨t, ht, hft⟩, ⟨⟨hne, hdi⟩, hdt⟩, hm⟩
    rw [show issuer.id = i from Table.key_of_find? hfi,
      show target.id = t from Table.key_of_find? hft] at hne
    exact ⟨i, t, hi, ht, issuer, target, hfi, hft, hne, hdi, hdt, hm⟩
  · rintro ⟨i, t, hi, ht, issuer, target, hfi, hft, hne, hdi, hdt, hm⟩
    rw [← show issuer.id = i from Table.key_of_find? hfi,
      ← show target.id = t from Table.key_of_find? hft] at hne
    exact ⟨issuer, ⟨i, hi, hfi⟩, target, ⟨t, ht, hft⟩, ⟨⟨hne, hdi⟩, hdt⟩, hm⟩

theorem find?_rewriteUsers (k : Text) :
    (rewriteUsers id f users).find? k = (users.find? k).map (rewriteUser id f) := by
  unfold rewriteUsers
  exact Table.find?_updateAll k

theorem find?_rewriteUsers_of_ne {k : Text} (h : k ≠ id) :
    (rewriteUsers id f users).find? k = users.find? k := by
  rw [find?_rewriteUsers]
  cases hf : users.find? k with
  | none => rfl
  | some u => rw [Option.map_some, rewriteUser_of_ne (by rw [Table.key_of_find? hf]; exact h)]

theorem find?_rewriteUsers_self {u : UserRow} (h : users.find? id = some u) :
    (rewriteUsers id f users).find? id = some { f u with id := u.id } := by
  rw [find?_rewriteUsers, h, Option.map_some, rewriteUser_of_eq (Table.key_of_find? h)]

theorem find?_inserts {row u : UserRow} (hi : Inserts row users users') {k : Text}
    (h : users.find? k = some u) : users'.find? k = some u := by
  rw [Table.find?_eq_some_iff] at h ⊢
  exact ⟨(mem_inserts hi).mpr (.inl h.1), h.2⟩

/-- Accounts that keep their roles and stay enabled are managed as before. -/
theorem Manages.mono (h : Manages users i t)
    (hu : ∀ k u, (k = i ∨ k = t) → users.find? k = some u →
      ∃ u', users'.find? k = some u' ∧ u'.role = u.role ∧ u'.disabled = u.disabled) :
    Manages users' i t := by
  obtain ⟨issuer, target, hfi, hft, hne, hdi, hdt, hm⟩ := h
  obtain ⟨issuer', hfi', hri, hdi'⟩ := hu i issuer (.inl rfl) hfi
  obtain ⟨target', hft', hrt, hdt'⟩ := hu t target (.inr rfl) hft
  refine ⟨issuer', target', hfi', hft', hne, hdi'.trans hdi, hdt'.trans hdt, ?_⟩
  rw [hri, hrt]
  exact hm

/-- A change of a third account. -/
theorem Manages.of_ne (h : Manages users i t) (hu : ∀ k, k ≠ id → users'.find? k = users.find? k)
    (hi : i ≠ id) (ht : t ≠ id) : Manages users' i t := by
  refine h.mono fun k u hk hf => ⟨u, ?_, rfl, rfl⟩
  rw [hu k (by rcases hk with rfl | rfl <;> assumption)]
  exact hf

/-- Only an account action changes a role or a deactivation. -/
theorem Manages.userChange {call : Call} (hc : UserChange db now call users')
    (hn : ∀ input a b, call ≠ .account input a b) (h : Manages db.users i t) :
    Manages users' i t := by
  cases hc with
  | same => exact h
  | email email ids owner ho =>
    refine h.mono fun k u _ hf => ⟨_, by rw [find?_rewriteUsers, hf, Option.map_some], ?_⟩
    unfold rewriteUser
    split_ifs <;> exact ⟨rfl, rfl⟩
  | bootstrap email ids row users ho hr hd hi =>
    exact h.mono fun k u _ hf => ⟨u, find?_inserts hi hf, rfl, rfl⟩
  | setup email ids row users ho hr hd hi =>
    exact h.mono fun k u _ hf => ⟨u, find?_inserts hi hf, rfl, rfl⟩
  | accepted tokenHash secretHash ids r row users hm hh ha hr ho hd hi =>
    exact h.mono fun k u _ hf => ⟨u, find?_inserts hi hf, rfl, rfl⟩
  | action input actor target users ha hd ht hr hc => exact absurd rfl (hn input actor.id target.id)

/-- Links that only age stay one for each account. -/
theorem LinksManaged.one_of_aged (h : LinksManaged db)
    (ha : ∀ r' ∈ db'.tokens.rows, openReset r' = true → ∃ r ∈ db.tokens.rows, Ages r r') :
    ∀ r ∈ db'.tokens.rows, ∀ r' ∈ db'.tokens.rows, openReset r = true → openReset r' = true →
      r.userId = r'.userId → r.id = r'.id := by
  intro r hr r' hr' ho ho' hu
  obtain ⟨r₀, hr₀, ha₀⟩ := ha r hr ho
  obtain ⟨r₀', hr₀', ha₀'⟩ := ha r' hr' ho'
  rw [ha₀.id, ha₀'.id]
  rw [ha₀.userId, ha₀'.userId] at hu
  exact h.one r₀ hr₀ r₀' hr₀' (ha₀.openReset ho) (ha₀'.openReset ho') hu

/-- A transaction that mints no reset link and changes no role. -/
theorem LinksManaged.other {call : Call} (h : LinksManaged db) (hm : MintsNoReset call db db')
    (hu : ∀ i t, Manages db.users i t → Manages db'.users i t) : LinksManaged db' := by
  obtain ⟨minted, hc, hn⟩ := hm
  have hold : ∀ r' ∈ db'.tokens.rows, openReset r' = true → ∃ r ∈ db.tokens.rows, Ages r r' := by
    intro r' hr' ho
    rcases hc r' hr' with h | h
    · exact h
    · have hp := (hn r' h).2
      simp [openReset, hp] at ho
  refine ⟨fun r' hr' ho i hi => ?_, h.one_of_aged hold⟩
  obtain ⟨r, hr, ha⟩ := hold r' hr' ho
  rcases ha.invitedBy with hb | hb
  · obtain ⟨t, ht, hman⟩ := h.managed r hr (ha.openReset ho) i (hb ▸ hi)
    exact ⟨t, ha.userId.trans ht, hu i t hman⟩
  · rw [hb] at hi
    cases hi

/-! ## Account actions -/

/-- An action after which every open link was open, and is managed if it was. -/
theorem LinksManaged.action (h : LinksManaged db)
    (hopen : ∀ r' ∈ db'.tokens.rows, openReset r' = true → ∃ r ∈ db.tokens.rows, Ages r r' ∧
      ∀ i t, r'.invitedBy = some i → r'.userId = some t → Manages db.users i t →
        Manages db'.users i t) : LinksManaged db' := by
  refine ⟨fun r' hr' ho i hi => ?_, h.one_of_aged fun r' hr' ho => ?_⟩
  · obtain ⟨r, hr, ha, hm⟩ := hopen r' hr' ho
    rcases ha.invitedBy with hb | hb
    · obtain ⟨t, ht, hman⟩ := h.managed r hr (ha.openReset ho) i (hb ▸ hi)
      exact ⟨t, ha.userId.trans ht, hm i t hi (ha.userId.trans ht) hman⟩
    · rw [hb] at hi
      cases hi
  · obtain ⟨r, hr, ha, _⟩ := hopen r' hr' ho
    exact ⟨r, hr, ha⟩

/-- A token that is open after a revocation was not selected. -/
theorem open_revokeTokens {p : TokenRow → Bool} (hr : r ∈ (revokeTokens p now db).tokens.rows)
    (ho : openReset r = true) : r ∈ db.tokens.rows ∧ p r = false := by
  obtain ⟨r₀, hr₀, rfl⟩ := mem_updateTokens.mp hr
  unfold rewriteToken at ho ⊢
  split_ifs at ho ⊢ with hp
  · simp [openReset, TokenRow.isOpen] at ho
  · exact ⟨hr₀, Bool.not_eq_true _ ▸ hp⟩

theorem open_revokeResetLinks {m : ResetLinkMatch}
    (hr : r ∈ (revokeResetLinks m now db).tokens.rows) (ho : openReset r = true) :
    r ∈ db.tokens.rows ∧ m.selects db r = false := by
  obtain ⟨hr, hp⟩ := open_revokeTokens hr ho
  rw [ho, Bool.true_and] at hp
  exact ⟨hr, hp⟩

theorem open_revokeInvitesIssuedBy {inviter : Text} {role : Option UserRole}
    (hr : r ∈ (revokeInvitesIssuedBy inviter role now db).tokens.rows) (ho : openReset r = true) :
    r ∈ db.tokens.rows := (open_revokeTokens hr ho).1

theorem canManage_owner (role : UserRole) : canManage role .owner = false := by
  cases role <;> rfl

theorem canManage_member (role : UserRole) : canManage .member role = false := by
  cases role <;> rfl

theorem LinksManaged.changeRole {target : UserRow} {newRole : UserRole} (h : LinksManaged db)
    (ht : db.users.find? target.id = some target) (ho : target.role ≠ .owner)
    (hn : newRole ≠ .owner) (hne : target.role ≠ newRole) :
    LinksManaged (changeRole target newRole now db) := by
  refine h.action fun r hr hopen => ?_
  rw [users_changeRole]
  unfold Admin.changeRole at hr
  split_ifs at hr with hm
  · -- promoted from member: its own links are revoked, and it had issued none that is open
    obtain ⟨hr, hs⟩ := open_revokeResetLinks hr hopen
    refine ⟨r, hr, Ages.rfl r, fun i t hi hu hman => ?_⟩
    have ht' : t ≠ target.id := by
      rintro rfl
      simp [ResetLinkMatch.selects, hu] at hs
    refine hman.of_ne (fun k => find?_rewriteUsers_of_ne) ?_ ht'
    rintro rfl
    obtain ⟨issuer, _, hfi, _, _, _, _, hcan⟩ := hman
    rw [ht, Option.some.injEq] at hfi
    have hmember : target.role = .member := by
      cases hr : target.role with
      | owner => exact absurd hr ho
      | member => rfl
      | admin => cases newRole <;> simp_all
    rw [← hfi, hmember, canManage_member] at hcan
    cases hcan
  · -- demoted from admin: what it issued is revoked, and who manages it is the owner
    have hm : newRole = .member := not_not.mp hm
    obtain ⟨hr, hs⟩ := open_revokeResetLinks hr hopen
    have hr := open_revokeInvitesIssuedBy hr hopen
    refine ⟨r, hr, Ages.rfl r, fun i t hi hu hman => ?_⟩
    have hi' : i ≠ target.id := by
      rintro rfl
      simp [ResetLinkMatch.selects, hi] at hs
    by_cases ht' : t = target.id
    · subst ht'
      obtain ⟨issuer, target', hfi, hft, hit, hdi, hdt, hcan⟩ := hman
      rw [ht, Option.some.injEq] at hft
      subst hft
      refine ⟨issuer, _, (find?_rewriteUsers_of_ne hi').trans hfi, find?_rewriteUsers_self ht, hit,
        hdi, hdt, ?_⟩
      show canManage issuer.role newRole = true
      rw [hm] at hne ⊢
      cases hi : issuer.role with
      | owner => rfl
      | admin => rfl
      | member =>
        rw [hi, canManage_member] at hcan
        cases hcan
    · exact hman.of_ne (fun k => find?_rewriteUsers_of_ne) hi' ht'

theorem LinksManaged.deactivate {target : UserRow} (h : LinksManaged db) :
    LinksManaged (deactivate target now db) := by
  refine h.action fun r hr hopen => ?_
  have hr : r ∈ (revokeResetLinks (.issuer target.id none) now (revokeResetLinks (.user target.id)
      now (revokeInvitesIssuedBy target.id none now (revokeAllUserSessions target.id
        (updateUser target.id (fun u => { u with disabledAt := some now }) db))))).tokens.rows := hr
  obtain ⟨hr, hs⟩ := open_revokeResetLinks hr hopen
  obtain ⟨hr, hs'⟩ := open_revokeResetLinks hr hopen
  have hr := open_revokeInvitesIssuedBy hr hopen
  refine ⟨r, hr, Ages.rfl r, fun i t hi hu hman => ?_⟩
  refine hman.of_ne (fun k => find?_rewriteUsers_of_ne) ?_ ?_
  · rintro rfl
    simp [ResetLinkMatch.selects, hi] at hs
  · rintro rfl
    simp [ResetLinkMatch.selects, hu] at hs'

/-- A deactivated account has no open link, of its own or issued. -/
theorem LinksManaged.reactivate {target : UserRow} (h : LinksManaged db)
    (ht : db.users.find? target.id = some target) (hd : target.disabled = true) :
    LinksManaged (reactivate target db) := by
  refine h.action fun r hr hopen => ⟨r, hr, Ages.rfl r, fun i t hi hu hman => ?_⟩
  refine hman.of_ne (fun k => find?_rewriteUsers_of_ne) ?_ ?_
  · rintro rfl
    obtain ⟨issuer, _, hfi, _, _, hdi, _⟩ := hman
    rw [ht, Option.some.injEq] at hfi
    rw [← hfi, hd] at hdi
    cases hdi
  · rintro rfl
    obtain ⟨_, target', _, hft, _, _, hdt, _⟩ := hman
    rw [ht, Option.some.injEq] at hft
    rw [← hft, hd] at hdt
    cases hdt

theorem find?_deleteUser_of_ne {k : Text} (h : k ≠ id) :
    (users.deleteWhere (·.id == id)).find? k = users.find? k := by
  rw [Table.find?_deleteWhere]
  cases hf : users.find? k with
  | none => rfl
  | some u =>
    have hk : u.id = k := Table.key_of_find? hf
    rw [Option.filter_some, if_pos (by simpa [hk] using h)]

theorem LinksManaged.remove {target : UserRow} (h : LinksManaged db) :
    LinksManaged (remove target now db) := by
  refine h.action fun r' hr' hopen => ?_
  obtain ⟨r, hr, rfl⟩ := List.mem_map.mp hr'
  obtain ⟨hr, hu⟩ := Table.mem_deleteWhere.mp hr
  have ha : Ages r (rewriteToken (·.invitedBy == some target.id)
      (fun r => { r with invitedBy := none }) r) :=
    ages_rewriteToken ⟨rfl, rfl, rfl, rfl, fun h => h, fun h => h, .inr rfl⟩
  have hr := open_revokeInvitesIssuedBy hr (ha.openReset hopen)
  refine ⟨r, hr, ha, fun i t hi ht hman => ?_⟩
  refine hman.of_ne (fun k => find?_deleteUser_of_ne) ?_ ?_
  · rintro rfl
    by_cases hb : r.invitedBy = some target.id
    · simp [rewriteToken, hb] at hi
    · simp [rewriteToken, hb] at hi
  · rintro rfl
    rw [ha.userId] at ht
    simp [ht] at hu

/-- The old owner still manages the members, and so does the new one. -/
theorem LinksManaged.transfer {owner newOwner : UserRow} (h : LinksManaged db)
    (hf : db.users.find? owner.id = some owner) (hf' : db.users.find? newOwner.id = some newOwner)
    (ho : owner.role = .owner) (ha : newOwner.role = .admin) :
    LinksManaged (transfer owner newOwner now db) := by
  have hne : newOwner.id ≠ owner.id := by
    intro hid
    rw [hid, hf, Option.some.injEq] at hf'
    rw [hf', ha] at ho
    cases ho
  refine h.action fun r hr hopen => ?_
  obtain ⟨hr, _⟩ := open_revokeTokens hr hopen
  have hr := open_revokeInvitesIssuedBy hr hopen
  obtain ⟨hr, hs⟩ := open_revokeResetLinks (m := .user newOwner.id) hr hopen
  obtain ⟨hr, hs'⟩ := open_revokeResetLinks hr hopen
  refine ⟨r, hr, Ages.rfl r, fun i t hi ht hman => ?_⟩
  obtain ⟨issuer, target, hfi, hft, hit, hdi, hdt, hcan⟩ := hman
  show Manages (rewriteUsers newOwner.id (fun u => { u with role := .owner })
    (rewriteUsers owner.id (fun u => { u with role := .admin }) db.users)) i t
  -- the account is neither party: nobody manages the owner, and the new one's links are revoked
  have hto : t ≠ owner.id := by
    rintro rfl
    rw [hf, Option.some.injEq] at hft
    rw [← hft, ho, canManage_owner] at hcan
    cases hcan
  have htn : t ≠ newOwner.id := by
    rintro rfl
    simp [ResetLinkMatch.selects, ht] at hs
  have hft' : (rewriteUsers newOwner.id (fun u => { u with role := .owner })
      (rewriteUsers owner.id (fun u => { u with role := .admin }) db.users)).find? t =
        some target := by
    rw [find?_rewriteUsers_of_ne htn, find?_rewriteUsers_of_ne hto, hft]
  by_cases hio : i = owner.id
  · -- of the owner's links those to admins are revoked
    subst hio
    have hmember : target.role = .member := by
      have hna : target.role ≠ .admin := by
        intro hta
        simp [ResetLinkMatch.selects, hi, ht, hft, hta] at hs'
      cases hr : target.role with
      | owner =>
        rw [hr, canManage_owner] at hcan
        cases hcan
      | admin => exact absurd hr hna
      | member => rfl
    rw [hf, Option.some.injEq] at hfi
    subst hfi
    have hfo := find?_rewriteUsers_self (f := fun u => { u with role := .admin }) hf
    refine ⟨_, target, (find?_rewriteUsers_of_ne hne.symm).trans hfo, hft', hit, hdi, hdt, ?_⟩
    rw [hmember]
    rfl
  · by_cases hin : i = newOwner.id
    · subst hin
      rw [hf', Option.some.injEq] at hfi
      subst hfi
      have hfn : (rewriteUsers owner.id (fun u => { u with role := .admin }) db.users).find?
          newOwner.id = some newOwner := (find?_rewriteUsers_of_ne hne).trans hf'
      refine ⟨_, target, find?_rewriteUsers_self hfn, hft', hit, hdi, hdt, ?_⟩
      show canManage .owner target.role = true
      rw [ha] at hcan
      revert hcan
      cases target.role <;> decide
    · refine ⟨issuer, target, ?_, hft', hit, hdi, hdt, hcan⟩
      rw [find?_rewriteUsers_of_ne hin, find?_rewriteUsers_of_ne hio, hfi]

/-- A new link is managed by who issued it, and the others of its account are revoked. -/
theorem LinksManaged.replaceResetToken {actor target : UserRow} {ids : Minted} (h : LinksManaged db)
    (hm : Manages db.users actor.id target.id)
    (hr : replaceResetToken target.id actor.id ids now db = some db') : LinksManaged db' := by
  have hold : ∀ r ∈ db'.tokens.rows, openReset r = true →
      (r ∈ db.tokens.rows ∧ r.userId ≠ some target.id) ∨
        r = resetToken target.id actor.id ids now := by
    intro r hr' hopen
    rcases mem_of_insertToken hr hr' with hr' | rfl
    · obtain ⟨hr', hs⟩ := open_revokeResetLinks hr' hopen
      exact .inl ⟨hr', by simpa [ResetLinkMatch.selects] using hs⟩
    · exact .inr rfl
  have husers : db'.users = db.users := (users_of_insertToken hr).trans rfl
  constructor
  · intro r hr' hopen i hi
    rw [husers]
    rcases hold r hr' hopen with ⟨hr', _⟩ | rfl
    · exact h.managed r hr' hopen i hi
    · cases hi
      exact ⟨target.id, rfl, hm⟩
  · intro r hr₁ r' hr₂ ho₁ ho₂ hu
    rcases hold r hr₁ ho₁ with ⟨hr₁, hn₁⟩ | rfl
    · rcases hold r' hr₂ ho₂ with ⟨hr₂, _⟩ | rfl
      · exact h.one r hr₁ r' hr₂ ho₁ ho₂ hu
      · exact absurd hu hn₁
    · rcases hold r' hr₂ ho₂ with ⟨_, hn₂⟩ | rfl
      · exact absurd hu.symm hn₂
      · rfl

theorem manages_of_allowed {actor target : UserRow} (hf : db.users.find? actor.id = some actor)
    (hf' : db.users.find? target.id = some target) (hd : actor.disabled = false)
    (h : accountActionRefusal .resetPassword actor target = none) :
    Manages db.users actor.id target.id := by
  have hne := (parties_of_allowed h).1
  unfold accountActionRefusal at h
  dsimp only at h
  split_ifs at h with _ _ hcan hdt
  exact ⟨actor, target, hf, hf', hne, hd, by simpa using hdt, by simpa using hcan⟩

theorem disabled_of_allowed {actor target : UserRow}
    (h : accountActionRefusal .reactivate actor target = none) : target.disabled = true := by
  unfold accountActionRefusal at h
  dsimp only at h
  split_ifs at h with _ _ _ hdt
  exact hdt

variable {toLowerCase : Text → Text}

theorem LinksManaged.mutate {input : AccountInput} {actor target : UserRow} (h : LinksManaged db)
    (hf : db.users.find? actor.id = some actor) (hf' : db.users.find? target.id = some target)
    (hd : actor.disabled = false) (hr : accountActionRefusal input.action actor target = none)
    (hm : mutate toLowerCase input now actor target db = some (none, db')) : LinksManaged db' := by
  cases input with
  | changeRole rawRole =>
    rw [Admin.mutate] at hm
    cases hrole : inviteRole? rawRole with
    | none => simp [hrole] at hm
    | some newRole =>
      rw [hrole, Option.elim_some] at hm
      split_ifs at hm with hne
      · cases hm
      · cases hm
        exact h.changeRole hf' (parties_of_allowed hr).2 (inviteRole?_ne_owner hrole) hne
  | deactivate =>
    cases hm
    exact h.deactivate
  | reactivate =>
    cases hm
    exact h.reactivate hf' (disabled_of_allowed hr)
  | remove confirm =>
    rw [Admin.mutate] at hm
    split_ifs at hm
    · cases hm
      exact h.remove
    · cases hm
  | transferOwnership limited passwordOk =>
    rw [Admin.mutate] at hm
    split_ifs at hm
    · cases hm
    · cases hm
      exact h.transfer hf hf' (actor_owner hr (.inr rfl)) (target_eligible hr).1
  | resetPassword ids =>
    obtain ⟨d, hins, hm⟩ := Option.map_eq_some_iff.mp hm
    cases hm
    exact h.replaceResetToken (manages_of_allowed hf hf' hd hr) hins

theorem LinksManaged.account {input : AccountInput} {actorId targetId : Text} {answer : Answer}
    (h : LinksManaged db)
    (ha : accountAction toLowerCase input actorId targetId now db = some (answer, db')) :
    LinksManaged db' := by
  cases answer with
  | some r =>
    rw [accountAction_refused ha]
    exact h
  | none =>
    rcases accountAction_cases ha with ⟨hn, _⟩ | ⟨actor, target, hf, hf', hd, hr, hm⟩
    · exact absurd rfl hn
    · rw [← show actor.id = actorId from Table.key_of_find? hf] at hf
      rw [← show target.id = targetId from Table.key_of_find? hf'] at hf'
      exact h.mutate hf hf' hd hr hm

/-- **Every transaction leaves the open reset links managed.** -/
theorem LinksManaged.run {call : Call} (h : LinksManaged db)
    (hc : call.run toLowerCase now db = some db') : LinksManaged db' := by
  by_cases hn : ∀ input a b, call ≠ .account input a b
  · exact h.other (mintsNoReset_run hc hn) fun i t => Manages.userChange (userChange_run hc) hn
  · push Not at hn
    obtain ⟨input, actorId, targetId, rfl⟩ := hn
    obtain ⟨⟨answer, d⟩, hd, rfl⟩ := Option.map_eq_some_iff.mp hc
    exact h.account hd

end Managing

/-! ## Histories -/

/-- The directory, the database clock and the token ids minted so far. -/
structure History where
  db : Directory
  clock : Time
  minted : List Text

/-- Before the first transaction. -/
def History.empty : History := ⟨Directory.empty, 0, []⟩

/-- What happens: a transaction commits, with its `now()`, or time passes. -/
inductive Event
  | call (now : Time) (call : Call)
  | tick (ms : Time)

/-- One event.  `generateId` repeats no id: a transaction with an old one is none. -/
def History.step (toLowerCase : Text → Text) (s : History) : Event → History
  | .tick ms => { s with clock := s.clock + ms }
  | .call now call =>
    if call.tokenId?.any s.minted.contains then s
    else
      { s with
        db := Admin.step toLowerCase s.db (now, call)
        minted := call.tokenId?.toList ++ s.minted }

/-- The link is usable at the clock's time. -/
def History.usable (s : History) (id : Text) : Bool :=
  (s.db.tokens.find? id).any (usableReset s.db s.clock)

/-- The link a completed reset spends. -/
def History.spends (s : History) : Event → Option Text
  | .call now (.completePasswordReset tokenHash secretHash ids) =>
    if (completePasswordReset tokenHash secretHash ids now s.db).isSome then
      (resetToSpend tokenHash now s.db).map (·.id)
    else none
  | .call .. | .tick _ => none

/-- The links spent along a run, in order. -/
def spentAlong (toLowerCase : Text → Text) : History → List Event → List Text
  | _, [] => []
  | s, e :: es => (s.spends e).toList ++ spentAlong toLowerCase (s.step toLowerCase e) es

/-- What the invariant of a history is. -/
structure History.Sound (s : History) : Prop where
  links : LinksManaged s.db
  known : ∀ r ∈ s.db.tokens.rows, r.id ∈ s.minted

section Histories

variable {toLowerCase : Text → Text} {s : History} {e : Event} {id : Text}

/-- **What an event does to the tokens.** -/
theorem tokens_step (r' : TokenRow) (hr' : r' ∈ (s.step toLowerCase e).db.tokens.rows) :
    (∃ r ∈ s.db.tokens.rows, Ages r r') ∨
      r'.id ∉ s.minted ∧ r'.id ∈ (s.step toLowerCase e).minted := by
  cases e with
  | tick ms => exact .inl ⟨r', hr', Ages.rfl r'⟩
  | call now call =>
    unfold History.step at hr' ⊢
    dsimp only at hr' ⊢
    split_ifs at hr' ⊢ with hold
    · exact .inl ⟨r', hr', Ages.rfl r'⟩
    · unfold Admin.step at hr'
      dsimp only at hr'
      cases hc : call.run toLowerCase now s.db with
      | none =>
        rw [hc] at hr'
        exact .inl ⟨r', hr', Ages.rfl r'⟩
      | some db' =>
        rw [hc] at hr'
        obtain ⟨minted, ht, hm⟩ := tokenChange_run hc
        rcases ht r' hr' with h | h
        · exact .inl h
        · refine .inr ⟨fun hmem => hold ?_, ?_⟩
          · rw [hm r' h]
            simpa using hmem
          · rw [hm r' h]
            exact List.mem_cons_self

theorem minted_step {id : Text} (h : id ∈ s.minted) : id ∈ (s.step toLowerCase e).minted := by
  cases e with
  | tick ms => exact h
  | call now call =>
    unfold History.step
    dsimp only
    split_ifs
    · exact h
    · exact List.mem_append_right _ h

theorem History.Sound.step (h : s.Sound) (e : Event) : (s.step toLowerCase e).Sound := by
  constructor
  · cases e with
    | tick ms => exact h.links
    | call now call =>
      unfold History.step
      dsimp only
      split_ifs
      · exact h.links
      · unfold Admin.step
        dsimp only
        cases hc : call.run toLowerCase now s.db with
        | none => exact h.links
        | some db' => exact h.links.run hc
  · intro r' hr'
    rcases tokens_step r' hr' with ⟨r, hr, ha⟩ | ⟨_, hm⟩
    · rw [ha.id]
      exact minted_step (h.known r hr)
    · exact hm

theorem sound_empty : History.empty.Sound where
  links := ⟨fun _ hr => absurd hr List.not_mem_nil, fun _ hr => absurd hr List.not_mem_nil⟩
  known := fun _ hr => absurd hr List.not_mem_nil

theorem History.Sound.run (h : s.Sound) (es : List Event) :
    (run (History.step toLowerCase) s es).Sound :=
  foldl_invariant History.Sound (fun _ e h => h.step e) h es

/-! ## Dead links -/

/-- The link is closed, expired, or has lost its issuer: none of these ends. -/
def History.Dead (s : History) (id : Text) : Prop :=
  ∀ r ∈ s.db.tokens.rows, r.id = id →
    openReset r = false ∨ r.expiresAt ≤ s.clock ∨ r.invitedBy = none

/-- An open link's issuer manages its account, so only these make a link unusable. -/
theorem usable_eq_false_iff (h : s.Sound) : s.usable id = false ↔ s.Dead id := by
  constructor
  · intro hu r hr hid
    have hf : s.db.tokens.find? id = some r := Table.find?_eq_some_iff.mpr ⟨hr, hid⟩
    rw [History.usable, hf, Option.any_some] at hu
    unfold usableReset at hu
    simp only [Bool.and_eq_false_iff, decide_eq_false_iff_not, not_lt] at hu
    rcases hu with (hopen | hexp) | hman
    · exact .inl hopen
    · exact .inr (.inl hexp)
    · by_cases hopen : openReset r = true
      · cases hi : r.invitedBy with
        | none => exact .inr (.inr rfl)
        | some i =>
          obtain ⟨t, ht, hm⟩ := h.links.managed r hr hopen i hi
          rw [issuerStillManages_iff.mpr ⟨i, t, hi, ht, hm⟩] at hman
          cases hman
      · exact .inl (by simpa using hopen)
  · intro hd
    rw [Bool.eq_false_iff]
    intro hu
    obtain ⟨r, hf, hu⟩ := (Option.any_eq_true _ _).mp hu
    obtain ⟨hr, hid⟩ := Table.find?_eq_some_iff.mp hf
    unfold usableReset at hu
    simp only [Bool.and_eq_true, decide_eq_true_iff] at hu
    obtain ⟨⟨hopen, hexp⟩, hman⟩ := hu
    obtain ⟨i, t, hi, _⟩ := issuerStillManages_iff.mp hman
    rcases hd r hr hid with hclosed | hpast | hnone
    · rw [hopen] at hclosed
      cases hclosed
    · exact absurd hexp (not_lt.mpr hpast)
    · rw [hi] at hnone
      cases hnone

theorem clock_step : s.clock ≤ (s.step toLowerCase e).clock := by
  cases e with
  | tick ms => exact Nat.le_add_right _ _
  | call now call =>
    unfold History.step
    dsimp only
    split_ifs <;> exact le_rfl

theorem History.Dead.step (h : s.Dead id) (hm : id ∈ s.minted) (e : Event) :
    (s.step toLowerCase e).Dead id := by
  intro r' hr' hid
  rcases tokens_step r' hr' with ⟨r, hr, ha⟩ | ⟨hn, _⟩
  · rcases h r hr (ha.id.symm.trans hid) with hclosed | hexp | hnone
    · refine .inl (Bool.eq_false_iff.mpr fun hopen => ?_)
      rw [ha.openReset hopen] at hclosed
      cases hclosed
    · rw [ha.expiresAt]
      exact .inr (.inl (hexp.trans clock_step))
    · refine .inr (.inr ?_)
      rcases ha.invitedBy with hi | hi
      · exact hi.trans hnone
      · exact hi
  · rw [hid] at hn
    exact absurd hm hn

theorem History.Dead.run (h : s.Dead id) (hm : id ∈ s.minted) (es : List Event) :
    (run (History.step toLowerCase) s es).Dead id :=
  (foldl_invariant (fun s : History => s.Dead id ∧ id ∈ s.minted)
    (fun _ e h => ⟨h.1.step h.2 e, minted_step h.2⟩) ⟨h, hm⟩ es).1

/-! ## Spent links -/

/-- The link is spent, revoked or gone, and its id not minted again. -/
def History.Closed (s : History) (id : Text) : Prop :=
  (∀ r ∈ s.db.tokens.rows, r.id = id → openReset r = false) ∧ id ∈ s.minted

theorem History.Closed.step (h : s.Closed id) (e : Event) : (s.step toLowerCase e).Closed id := by
  refine ⟨fun r' hr' hid => ?_, minted_step h.2⟩
  rcases tokens_step r' hr' with ⟨r, hr, ha⟩ | ⟨hn, _⟩
  · refine Bool.eq_false_iff.mpr fun hopen => ?_
    have hclosed := h.1 r hr (ha.id.symm.trans hid)
    rw [ha.openReset hopen] at hclosed
    cases hclosed
  · rw [hid] at hn
    exact absurd h.2 hn

theorem spends_cases (h : s.spends e = some id) : ∃ now tokenHash secretHash ids db' r,
    e = .call now (.completePasswordReset tokenHash secretHash ids) ∧
      completePasswordReset tokenHash secretHash ids now s.db = some db' ∧
      resetToSpend tokenHash now s.db = some r ∧ r.id = id := by
  unfold History.spends at h
  split at h
  · next now tokenHash secretHash ids =>
    split_ifs at h with hc
    obtain ⟨db', hc⟩ := Option.isSome_iff_exists.mp hc
    obtain ⟨r, hs, hid⟩ := Option.map_eq_some_iff.mp h
    exact ⟨now, tokenHash, secretHash, ids, db', r, rfl, hc, hs, hid⟩
  · cases h
  · cases h

theorem open_of_spends (h : s.spends e = some id) :
    ∃ r ∈ s.db.tokens.rows, r.id = id ∧ openReset r = true := by
  obtain ⟨now, tokenHash, _, _, _, r, _, _, hs, hid⟩ := spends_cases h
  have hu := List.find?_some hs
  simp only [usableReset, Bool.and_eq_true] at hu
  exact ⟨r, List.mem_of_find?_eq_some hs, hid, hu.2.1.1⟩

theorem closed_of_spends (hsound : s.Sound) (h : s.spends e = some id) :
    (s.step toLowerCase e).Closed id := by
  obtain ⟨r₀, hr₀, hid₀, _⟩ := open_of_spends h
  refine ⟨fun r' hr' hid' => ?_, minted_step (hid₀ ▸ hsound.known r₀ hr₀)⟩
  obtain ⟨now, tokenHash, secretHash, ids, db', r, rfl, hc, hs, rfl⟩ := spends_cases h
  have hstep : (s.step toLowerCase
      (.call now (.completePasswordReset tokenHash secretHash ids))).db = db' := by
    show ((completePasswordReset tokenHash secretHash ids now s.db).getD s.db) = db'
    rw [hc]
    rfl
  rw [hstep] at hr'
  obtain ⟨r₁, hr₁, ha⟩ := aged_of_resetToSpend hs hc r' hr'
  refine Bool.eq_false_iff.mpr fun ho => ?_
  have ho₁ := ha.openReset ho
  obtain ⟨r₂, _, rfl⟩ := mem_updateTokens.mp hr₁
  have hid₂ : r₂.id = r.id := by
    rw [← hid', ha.id, rewriteToken_id]
  simp [rewriteToken, hid₂, openReset, TokenRow.isOpen] at ho₁

theorem History.Closed.notMem_spentAlong (h : s.Closed id) (es : List Event) :
    id ∉ spentAlong toLowerCase s es := by
  induction es generalizing s with
  | nil => exact List.not_mem_nil
  | cons e es ih =>
    rw [spentAlong, List.mem_append, not_or]
    refine ⟨fun hm => ?_, ih (h.step e)⟩
    obtain ⟨r, hr, hid, hopen⟩ := open_of_spends (Option.mem_toList.mp hm)
    rw [h.1 r hr hid] at hopen
    cases hopen

theorem nodup_spentAlong (h : s.Sound) (es : List Event) : (spentAlong toLowerCase s es).Nodup := by
  induction es generalizing s with
  | nil => exact List.nodup_nil
  | cons e es ih =>
    rw [spentAlong]
    cases hs : s.spends e with
    | none => exact ih (h.step e)
    | some id =>
      refine List.nodup_cons.mpr ⟨?_, ih (h.step e)⟩
      exact (closed_of_spends h hs).notMem_spentAlong es

end Histories

/-- What holds of the reset links after the events, whatever comes next. -/
structure LinksStayDead (toLowerCase : Text → Text) (es : List Event) (s : History) : Prop where
  dead : ∀ id ∈ s.minted, s.usable id = false →
    ∀ later, (run (History.step toLowerCase) s later).usable id = false
  oneOpen : ∀ r ∈ s.db.tokens.rows, ∀ r' ∈ s.db.tokens.rows, openReset r = true →
    openReset r' = true → r.userId = r'.userId → r = r'
  spentOnce : (spentAlong toLowerCase .empty es).Nodup

/-- **A dead reset link stays dead.** -/
theorem linksStayDead_run (toLowerCase : Text → Text) (es : List Event) :
    LinksStayDead toLowerCase es (run (History.step toLowerCase) .empty es) := by
  have hs : (run (History.step toLowerCase) .empty es).Sound := sound_empty.run es
  constructor
  · intro id hm hu later
    rw [usable_eq_false_iff (hs.run later)]
    exact ((usable_eq_false_iff hs).mp hu).run hm later
  · intro r hr r' hr' ho ho' hu
    exact Table.eq_of_key_eq hr hr' (hs.links.one r hr r' hr' ho ho' hu)
  · exact nodup_spentAlong sound_empty es

/-- A member gets a reset link, and is promoted and demoted again. -/
def promotedAndBack : List Event :=
  [.call 0 (.bootstrapOwner "o@x.org" ⟨"usr_1", "", "utk_1", "h1", ""⟩),
    .call 1 (.createInvitation ⟨"usr_1", .owner, "m@x.org", .member, 7, ⟨"", "", "utk_2", "h2", ""⟩⟩),
    .call 2 (.acceptInvitation "h2" "p" ⟨"usr_2", "crd_2", "", "", "ses_2"⟩),
    .call 3 (.account (.resetPassword ⟨"", "", "utk_3", "h3", ""⟩) "usr_1" "usr_2"),
    .call 4 (.account (.changeRole "admin") "usr_1" "usr_2"),
    .call 5 (.account (.changeRole "member") "usr_1" "usr_2")]

example : [4, 5, 6].map (fun n => (run (History.step id) .empty
    (promotedAndBack.take n)).usable "utk_3") = [true, false, false] := by decide +kernel

end BunMail.Users.Admin
