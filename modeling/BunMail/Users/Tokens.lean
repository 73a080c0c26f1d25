import BunMail.Users.SingleOwner

/-!
# How tokens age

What a transaction can do to the tokens: spend or revoke some, forget the issuer of some, delete
some, and mint one with a new id.
-/

namespace BunMail.Users.Admin

open Sso

/-! ## How tokens age -/

/-- What can become of a token. -/
structure Ages (r r' : TokenRow) : Prop where
  id : r'.id = r.id
  purpose : r'.purpose = r.purpose
  userId : r'.userId = r.userId
  expiresAt : r'.expiresAt = r.expiresAt
  usedAt : r.usedAt.isSome = true → r'.usedAt.isSome = true
  revokedAt : r.revokedAt.isSome = true → r'.revokedAt.isSome = true
  invitedBy : r'.invitedBy = r.invitedBy ∨ r'.invitedBy = none

theorem Ages.rfl (r : TokenRow) : Ages r r :=
  ⟨Eq.refl _, Eq.refl _, Eq.refl _, Eq.refl _, fun h => h, fun h => h, .inl (Eq.refl _)⟩

theorem Ages.trans {a b c : TokenRow} (h : Ages a b) (h' : Ages b c) : Ages a c where
  id := h'.id.trans h.id
  purpose := h'.purpose.trans h.purpose
  userId := h'.userId.trans h.userId
  expiresAt := h'.expiresAt.trans h.expiresAt
  usedAt := fun hu => h'.usedAt (h.usedAt hu)
  revokedAt := fun hu => h'.revokedAt (h.revokedAt hu)
  invitedBy := by
    rcases h'.invitedBy with h' | h'
    · rw [h']
      exact h.invitedBy
    · exact .inr h'

/-- A token that is open was open. -/
theorem Ages.openReset {r r' : TokenRow} (h : Ages r r') (ho : openReset r' = true) :
    openReset r = true := by
  unfold Admin.openReset TokenRow.isOpen at ho ⊢
  simp only [Bool.and_eq_true, beq_iff_eq, Option.isNone_iff_eq_none] at ho ⊢
  refine ⟨h.purpose ▸ ho.1, ?_, ?_⟩
  · by_contra hu
    have := h.usedAt (Option.isSome_iff_ne_none.mpr hu)
    simp [ho.2.1] at this
  · by_contra hu
    have := h.revokedAt (Option.isSome_iff_ne_none.mpr hu)
    simp [ho.2.2] at this

/-- Every token is one from before, older. -/
def Aged (db db' : Directory) : Prop := ∀ r' ∈ db'.tokens.rows, ∃ r ∈ db.tokens.rows, Ages r r'

/-- Every token is one from before, older, or the one minted. -/
def TokenChange (minted : Option TokenRow) (db db' : Directory) : Prop :=
  ∀ r' ∈ db'.tokens.rows, (∃ r ∈ db.tokens.rows, Ages r r') ∨ minted = some r'

section Tokens

variable {db db' db'' : Directory} {now : Time} {minted : Option TokenRow} {r : TokenRow}

theorem aged_of_eq (h : db'.tokens = db.tokens) : Aged db db' := by
  intro r' hr'
  rw [h] at hr'
  exact ⟨r', hr', Ages.rfl r'⟩

theorem Aged.trans (h : Aged db db') (h' : Aged db' db'') : Aged db db'' := by
  intro r'' hr''
  obtain ⟨r', hr', ha'⟩ := h' r'' hr''
  obtain ⟨r, hr, ha⟩ := h r' hr'
  exact ⟨r, hr, ha.trans ha'⟩

theorem Aged.change (h : Aged db db') : TokenChange minted db db' := fun r' hr' => .inl (h r' hr')

theorem mem_updateTokens {p : TokenRow → Bool} {f : TokenRow → TokenRow} :
    r ∈ (updateTokens p f db).tokens.rows ↔ ∃ r₀ ∈ db.tokens.rows, rewriteToken p f r₀ = r :=
  List.mem_map

theorem ages_rewriteToken {p : TokenRow → Bool} {f : TokenRow → TokenRow}
    (h : Ages r { f r with id := r.id }) : Ages r (rewriteToken p f r) := by
  unfold rewriteToken
  split_ifs
  · exact h
  · exact Ages.rfl r

theorem aged_revoke {p : TokenRow → Bool} : Aged db (revokeTokens p now db) := by
  intro r' hr'
  obtain ⟨r, hr, rfl⟩ := mem_updateTokens.mp hr'
  exact ⟨r, hr, ages_rewriteToken ⟨rfl, rfl, rfl, rfl, fun h => h, fun _ => rfl, .inl rfl⟩⟩

theorem aged_spend {id : Text} : Aged db (spendToken id now db) := by
  intro r' hr'
  obtain ⟨r, hr, rfl⟩ := mem_updateTokens.mp hr'
  exact ⟨r, hr, ages_rewriteToken ⟨rfl, rfl, rfl, rfl, fun _ => rfl, fun h => h, .inl rfl⟩⟩

theorem aged_deleteUser {id : Text} : Aged db (deleteUser id db) := by
  intro r' hr'
  obtain ⟨r, hr, rfl⟩ := List.mem_map.mp hr'
  refine ⟨r, (Table.mem_deleteWhere.mp hr).1, ages_rewriteToken ?_⟩
  exact ⟨rfl, rfl, rfl, rfl, fun h => h, fun h => h, .inr rfl⟩

/-- An inserted token is the only new one. -/
theorem mem_of_insertToken {row : TokenRow} (h : insertToken row db = some db')
    (hr : r ∈ db'.tokens.rows) : r ∈ db.tokens.rows ∨ r = row := by
  unfold insertToken at h
  split_ifs at h
  cases h
  rcases Table.mem_upsert (fun _ _ => rfl) hr with ⟨hr, _⟩ | ⟨_, rfl | ⟨_, hr, _, rfl⟩⟩
  · exact .inl hr
  · exact .inr rfl
  · exact .inl hr

theorem tokenChange_insertToken {row : TokenRow} (ha : Aged db db')
    (h : insertToken row db' = some db'') : TokenChange (some row) db db'' := by
  intro r hr
  rcases mem_of_insertToken h hr with hr | rfl
  · exact .inl (ha r hr)
  · exact .inr rfl

theorem tokens_of_insertUser {row : UserRow} (h : insertUser row db = some db') :
    db'.tokens = db.tokens := by
  unfold insertUser at h
  split_ifs at h
  cases h
  rfl

theorem tokens_of_insertCredential {row : CredentialRow} (h : insertCredential row db = some db') :
    db'.tokens = db.tokens := by
  unfold insertCredential at h
  split_ifs at h
  cases h
  rfl

theorem tokens_of_replacePassword {userId secretHash : Text} {ids : Minted}
    (h : replacePassword userId secretHash ids db = some db') : db'.tokens = db.tokens := by
  obtain ⟨d, hd, rfl⟩ := Option.map_eq_some_iff.mp h
  exact (tokens_of_insertCredential hd).trans rfl

theorem tokens_assign : ((findOwner db).elim db fun owner => assignUnownedRecords owner.id db).tokens =
    db.tokens := by
  cases findOwner db <;> rfl

/-- The token id a call mints. -/
def Call.tokenId? : Call → Option Text
  | .bootstrapOwner _ ids | .issueOwnerSetupLink _ ids | .account (.resetPassword ids) _ _ =>
    some ids.tokenId
  | .createInvitation call => some call.ids.tokenId
  | .account .. | .completeOwnerSetup .. | .acceptInvitation .. | .completePasswordReset ..
  | .changePassword _ => none

/-- The call mints no token but one with its id, and that no reset link. -/
def MintsNoReset (call : Call) (db db' : Directory) : Prop :=
  ∃ minted, TokenChange minted db db' ∧
    ∀ r ∈ minted, call.tokenId? = some r.id ∧ r.purpose ≠ .passwordReset

theorem Aged.mintsNoReset (h : Aged db db') (call : Call) : MintsNoReset call db db' :=
  ⟨none, h.change, fun r hr => by cases hr⟩

theorem mintsNoReset_setup {call : Call} {userId : Text} {ids : Minted}
    (h : replaceSetupToken userId ids now db' = some db'') (ha : Aged db db')
    (hc : call.tokenId? = some ids.tokenId) : MintsNoReset call db db'' := by
  refine ⟨_, tokenChange_insertToken (ha.trans aged_revoke) h, fun r hr => ?_⟩
  cases hr
  exact ⟨hc, by simp [setupToken]⟩

theorem mintsNoReset_createOwner {call : Call} {email : Text} {ids : Minted}
    (h : createOwner email ids now db = some db') (hc : call.tokenId? = some ids.tokenId) :
    MintsNoReset call db db' := by
  obtain ⟨d, hd, h⟩ := Option.bind_eq_some_iff.mp h
  exact mintsNoReset_setup h (aged_of_eq (tokens_of_insertUser hd)) hc

theorem mintsNoReset_bootstrapOwner {email : Text} {ids : Minted}
    (h : bootstrapOwner email ids now db = some db') :
    MintsNoReset (.bootstrapOwner email ids) db db' := by
  obtain ⟨d, hd, rfl⟩ := Option.map_eq_some_iff.mp h
  -- the records assigned afterwards leave the tokens
  suffices hs : MintsNoReset (.bootstrapOwner email ids) db d by
    obtain ⟨minted, ht, hm⟩ := hs
    refine ⟨minted, ?_, hm⟩
    unfold TokenChange
    rw [tokens_assign]
    exact ht
  unfold bootstrapOwnerRow at hd
  cases ho : findOwner db with
  | none =>
    simp only [ho] at hd
    split_ifs at hd
    · cases hd
      exact (aged_of_eq rfl).mintsNoReset _
    · exact mintsNoReset_createOwner hd rfl
  | some owner =>
    simp only [ho] at hd
    split_ifs at hd
    · cases hd
      exact (aged_of_eq rfl).mintsNoReset _
    · cases hd
      exact (aged_of_eq rfl).mintsNoReset _
    · exact mintsNoReset_setup hd (aged_of_eq rfl) rfl
    · exact mintsNoReset_setup hd (aged_of_eq rfl) rfl

theorem mintsNoReset_issueOwnerSetupLink {email : Option Text} {ids : Minted}
    (h : issueOwnerSetupLink email ids now db = some db') :
    MintsNoReset (.issueOwnerSetupLink email ids) db db' := by
  unfold issueOwnerSetupLink at h
  cases ho : findOwner db with
  | some owner =>
    simp only [ho] at h
    exact mintsNoReset_setup h (Aged.trans aged_revoke (aged_of_eq rfl)) rfl
  | none =>
    simp only [ho] at h
    obtain ⟨e, _, h⟩ := Option.bind_eq_some_iff.mp h
    split_ifs at h
    exact mintsNoReset_createOwner h rfl

theorem aged_completeOwnerSetup {tokenHash secretHash : Text} {ids : Minted}
    (h : completeOwnerSetup tokenHash secretHash ids now db = some db') : Aged db db' := by
  unfold completeOwnerSetup at h
  split at h
  · cases h
    exact aged_of_eq rfl
  · next r _ =>
    cases hu : r.userId with
    | none =>
      rw [hu] at h
      cases h
      exact aged_spend
    | some userId =>
      rw [hu] at h
      obtain ⟨d, hd, rfl⟩ := Option.map_eq_some_iff.mp h
      exact aged_spend.trans ((aged_of_eq (tokens_of_replacePassword hd)).trans aged_revoke)

theorem aged_of_resetToSpend {tokenHash secretHash : Text} {ids : Minted}
    (hs : resetToSpend tokenHash now db = some r)
    (h : completePasswordReset tokenHash secretHash ids now db = some db') :
    Aged (spendToken r.id now db) db' := by
  unfold completePasswordReset at h
  simp only [hs] at h
  cases hu : r.userId with
  | none =>
    rw [hu] at h
    cases h
    exact aged_of_eq rfl
  | some userId =>
    rw [hu] at h
    obtain ⟨d, hd, rfl⟩ := Option.map_eq_some_iff.mp h
    refine (aged_of_eq (tokens_of_replacePassword hd)).trans ?_
    exact aged_revoke.trans (aged_revoke.trans aged_revoke)

theorem aged_completePasswordReset {tokenHash secretHash : Text} {ids : Minted}
    (h : completePasswordReset tokenHash secretHash ids now db = some db') : Aged db db' := by
  cases hs : resetToSpend tokenHash now db with
  | some r => exact aged_spend.trans (aged_of_resetToSpend hs h)
  | none =>
    unfold completePasswordReset at h
    simp only [hs] at h
    cases h
    exact aged_of_eq rfl

theorem aged_changePassword {call : ChangeCall} (h : changePassword call now db = some db') :
    Aged db db' := by
  unfold changePassword at h
  split_ifs at h
  · cases h
    exact aged_of_eq rfl
  · obtain ⟨d, hd, rfl⟩ := Option.map_eq_some_iff.mp h
    exact (aged_of_eq ((tokens_of_insertCredential hd).trans rfl)).trans aged_revoke

theorem mintsNoReset_createInvitation {call : InviteCall}
    (h : createInvitation call now db = some db') : MintsNoReset (.createInvitation call) db db' := by
  unfold createInvitation at h
  split_ifs at h
  · cases h
    exact (aged_of_eq rfl).mintsNoReset _
  · cases h
    exact aged_revoke.mintsNoReset _
  · cases h
    exact (aged_of_eq rfl).mintsNoReset _
  · refine ⟨_, tokenChange_insertToken aged_revoke h, fun r hr => ?_⟩
    cases hr
    exact ⟨rfl, by simp [InviteCall.token]⟩

theorem aged_acceptInvitation {tokenHash secretHash : Text} {ids : Minted}
    (h : acceptInvitation tokenHash secretHash ids now db = some db') : Aged db db' := by
  unfold acceptInvitation at h
  split at h
  · cases h
    exact aged_of_eq rfl
  · split at h
    · split_ifs at h
      · cases h
        exact aged_of_eq rfl
      · cases h
        exact aged_revoke
      · obtain ⟨d, hd, h⟩ := Option.bind_eq_some_iff.mp h
        obtain ⟨e, he, rfl⟩ := Option.map_eq_some_iff.mp h
        refine aged_spend.trans ((aged_of_eq (tokens_of_insertUser hd)).trans ?_)
        exact (aged_of_eq (tokens_of_insertCredential he)).trans aged_revoke
    · cases h
      exact aged_of_eq rfl

variable {toLowerCase : Text → Text}

theorem mintsNoReset_run {call : Call} (hc : call.run toLowerCase now db = some db')
    (hn : ∀ input a b, call ≠ .account input a b) : MintsNoReset call db db' := by
  cases call with
  | account input actorId targetId => exact absurd rfl (hn input actorId targetId)
  | bootstrapOwner email ids => exact mintsNoReset_bootstrapOwner hc
  | issueOwnerSetupLink ownerEmail ids => exact mintsNoReset_issueOwnerSetupLink hc
  | completeOwnerSetup tokenHash secretHash ids =>
    exact (aged_completeOwnerSetup hc).mintsNoReset _
  | createInvitation call => exact mintsNoReset_createInvitation hc
  | acceptInvitation tokenHash secretHash ids => exact (aged_acceptInvitation hc).mintsNoReset _
  | completePasswordReset tokenHash secretHash ids =>
    exact (aged_completePasswordReset hc).mintsNoReset _
  | changePassword call => exact (aged_changePassword hc).mintsNoReset _

theorem aged_changeRole {target : UserRow} {newRole : UserRole} :
    Aged db (changeRole target newRole now db) := by
  unfold changeRole
  split_ifs
  · exact (aged_of_eq rfl).trans aged_revoke
  · exact (aged_of_eq rfl).trans (aged_revoke.trans (aged_revoke.trans (aged_of_eq rfl)))

theorem aged_deactivate {target : UserRow} : Aged db (deactivate target now db) :=
  (aged_of_eq rfl).trans (aged_revoke.trans (aged_revoke.trans aged_revoke))

theorem aged_remove {target : UserRow} : Aged db (remove target now db) :=
  aged_revoke.trans ((aged_of_eq rfl).trans aged_deleteUser)

theorem aged_transfer {owner newOwner : UserRow} : Aged db (transfer owner newOwner now db) :=
  aged_revoke.trans (aged_revoke.trans ((aged_of_eq rfl).trans (aged_revoke.trans aged_revoke)))

/-- The only new token of an account action is the link of a reset. -/
theorem tokenChange_mutate {input : AccountInput} {actor target : UserRow} {actorId targetId : Text}
    (hm : mutate toLowerCase input now actor target db = some (none, db')) :
    ∃ minted, TokenChange minted db db' ∧
      ∀ r ∈ minted, (Call.account input actorId targetId).tokenId? = some r.id := by
  have hnone : Aged db db' → ∃ minted, TokenChange minted db db' ∧
      ∀ r ∈ minted, (Call.account input actorId targetId).tokenId? = some r.id :=
    fun ha => ⟨none, ha.change, fun r hr => by cases hr⟩
  cases input with
  | changeRole rawRole =>
    rw [mutate] at hm
    cases hrole : inviteRole? rawRole with
    | none => simp [hrole] at hm
    | some newRole =>
      rw [hrole, Option.elim_some] at hm
      split_ifs at hm
      · cases hm
      · cases hm
        exact hnone aged_changeRole
  | deactivate =>
    cases hm
    exact hnone aged_deactivate
  | reactivate =>
    cases hm
    exact hnone (aged_of_eq rfl)
  | remove confirm =>
    rw [mutate] at hm
    split_ifs at hm
    · cases hm
      exact hnone aged_remove
    · cases hm
  | transferOwnership limited passwordOk =>
    rw [mutate] at hm
    split_ifs at hm
    · cases hm
    · cases hm
      exact hnone aged_transfer
  | resetPassword ids =>
    obtain ⟨d, hins, hm⟩ := Option.map_eq_some_iff.mp hm
    cases hm
    refine ⟨_, tokenChange_insertToken aged_revoke hins, fun r hr => ?_⟩
    cases hr
    rfl

/-- **What a transaction does to the tokens.** They age, and one may be new, with the minted id. -/
theorem tokenChange_run {call : Call} (hc : call.run toLowerCase now db = some db') :
    ∃ minted, TokenChange minted db db' ∧ ∀ r ∈ minted, call.tokenId? = some r.id := by
  by_cases hn : ∀ input a b, call ≠ .account input a b
  · obtain ⟨minted, ht, hm⟩ := mintsNoReset_run hc hn
    exact ⟨minted, ht, fun r hr => (hm r hr).1⟩
  · push Not at hn
    obtain ⟨input, actorId, targetId, rfl⟩ := hn
    obtain ⟨⟨answer, d⟩, hd, rfl⟩ := Option.map_eq_some_iff.mp hc
    rcases accountAction_cases hd with ⟨_, rfl⟩ | ⟨actor, target, _, _, _, _, hm⟩
    · exact ⟨none, (aged_of_eq rfl).change, fun r hr => by cases hr⟩
    · cases answer with
      | some refusal =>
        rw [mutate_refused hm]
        exact ⟨none, (aged_of_eq rfl).change, fun r hr => by cases hr⟩
      | none => exact tokenChange_mutate hm

end Tokens

end BunMail.Users.Admin
