import BunMail.ApiKeys.KeyActions

/-!
# Keys never outrank their creators

A key is created with its creator's row held in share mode, so no account action on the creator
comes in between.  A promotion only reads its creator: it can be committed between the start of a
demotion's update of the keys and the demotion's commit, or after it.  In every run without such a
promotion, no member's key is an admin key, and no key of a deactivated or removed account is
active.
-/

namespace BunMail.ApiKeys

open Transactions Users Run

/-! ## The property and its condition -/

/-- What the keys keep to. -/
structure Privileges (db : Tables) : Prop where
  member : ∀ k ∈ db.apiKeys.rows, ∀ u ∈ db.users.rows, k.creator = some u.id → u.role = .member →
    k.isAdmin = false
  deactivated : ∀ k ∈ db.apiKeys.rows, ∀ u ∈ db.users.rows, k.creator = some u.id →
    u.disabled = true → k.isActive = false
  removed : ∀ k ∈ db.apiKeys.rows, ∀ c, k.creator = some c → c ∉ db.users.keys → k.isActive = false

/-- A demotion that has started its update of the keys: its account, and the keys it picked. -/
def Phase.demotes : Phase → Option (Text × List Text)
  | .keysPicked (.changeRole .member) _ target candidates
  | .keysUpdated (.changeRole .member) _ target candidates => some (target.id, candidates)
  | .keysPicked .. | .keysUpdated .. | .creatorLocked .. | .keyInserted .. | .keyPicked ..
  | .keyUpdated .. | .owned .. | .actorLocked .. | .targetLocked .. | .userDeleted .. | .ended => none

/-- The creator of the key `id` is not a member, and no demotion of it has picked its keys without
this one. -/
def MayPromote (s : State) (id : Text) : Prop :=
  ∀ k ∈ s.db.apiKeys.rows, k.id = id → ∀ c ∈ k.creator,
    (∀ u ∈ s.db.users.rows, u.id = c → u.role ≠ .member) ∧
      ∀ e ∈ s.txs.rows, ∀ d ∈ e.2.demotes, d.1 = c → id ∈ d.2

instance (s : State) (id : Text) : Decidable (MayPromote s id) :=
  inferInstanceAs (Decidable (∀ k ∈ s.db.apiKeys.rows, k.id = id → ∀ c ∈ k.creator,
    (∀ u ∈ s.db.users.rows, u.id = c → u.role ≠ .member) ∧
      ∀ e ∈ s.txs.rows, ∀ d ∈ e.2.demotes, d.1 = c → id ∈ d.2))

/-- A promotion is committed only where its creator may hold an admin key then, and will. -/
def UnracedAt (s : State) : Phase → Prop
  | .keyUpdated (.setAdmin true) id => MayPromote s id
  | .keyUpdated .. | .creatorLocked .. | .keyInserted .. | .keyPicked .. | .owned .. | .actorLocked ..
  | .targetLocked .. | .keysPicked .. | .keysUpdated .. | .userDeleted .. | .ended => True

instance (s : State) : (p : Phase) → Decidable (UnracedAt s p)
  | .keyUpdated (.setAdmin true) id => inferInstanceAs (Decidable (MayPromote s id))
  | .keyUpdated (.setAdmin false) _ | .keyUpdated (.revoke _) _ => isTrue trivial
  | .creatorLocked .. | .keyInserted .. | .keyPicked .. | .owned .. | .actorLocked ..
  | .targetLocked .. | .keysPicked .. | .keysUpdated .. | .userDeleted .. | .ended => isTrue trivial

/-- The action meets it. -/
def Unraced (s : State) : Action → Prop
  | .next t _ => ∀ p ∈ s.phase? t, UnracedAt s p
  | .start .. | .fail _ => True

instance (s : State) : (a : Action) → Decidable (Unraced s a)
  | .next t _ => inferInstanceAs (Decidable (∀ p ∈ s.phase? t, UnracedAt s p))
  | .start .. | .fail _ => isTrue trivial

/-! ## Keys and accounts after a write -/

section Writes

variable {db : Tables} {k : ApiKeyRow} {c : Text}

theorem createdByUserId_eq_some :
    createdByUserId db k = some c ↔ k.creator = some c ∧ c ∈ db.users.keys := by
  simp only [createdByUserId, Option.filter_eq_some_iff, List.contains_iff_mem]

theorem mem_updateKeys {p : ApiKeyRow → Bool} {f : ApiKeyRow → ApiKeyRow} :
    k ∈ (updateKeys p f db).apiKeys.rows ↔ ∃ k₀ ∈ db.apiKeys.rows, rewrite p f k₀ = k :=
  List.mem_map

theorem mem_of_insertKey {row : ApiKeyRow} (h : k ∈ (insertKey row db).apiKeys.rows) :
    k ∈ db.apiKeys.rows ∨ k = row := by
  rcases Table.mem_upsert (fun _ _ => rfl) h with ⟨h, _⟩ | ⟨_, h | ⟨k₀, hk₀, _, rfl⟩⟩
  · exact .inl h
  · exact .inr h
  · exact .inl hk₀

@[simp] theorem rewrite_creator (p : ApiKeyRow → Bool) (f : ApiKeyRow → ApiKeyRow) :
    (rewrite p f k).creator = k.creator := by
  unfold rewrite
  split_ifs <;> rfl

theorem rewrite_isActive {p : ApiKeyRow → Bool} {f : ApiKeyRow → ApiKeyRow}
    (hf : ∀ k, (f k).isActive = true → k.isActive = true)
    (h : (rewrite p f k).isActive = true) : k.isActive = true := by
  unfold rewrite at h
  split_ifs at h
  · exact hf k h
  · exact h

theorem rewrite_isAdmin {p : ApiKeyRow → Bool} {f : ApiKeyRow → ApiKeyRow}
    (hf : ∀ k, (f k).isAdmin = true → k.isAdmin = true)
    (h : (rewrite p f k).isAdmin = true) : k.isAdmin = true := by
  unfold rewrite at h
  split_ifs at h
  · exact hf k h
  · exact h

theorem setKey_isActive {m : Mutation} (h : (m.setKey k).isActive = true) : k.isActive = true := by
  cases m <;> simp_all [Mutation.setKey]

theorem setKey_isAdmin {m : Mutation} (h : (m.setKey k).isAdmin = true) : k.isAdmin = true := by
  cases m <;> simp_all [Mutation.setKey]

theorem set_isActive {update : KeyUpdate} (h : (update.set k).isActive = true) :
    k.isActive = true := by
  cases update <;> simp_all [KeyUpdate.set]

/-- What an action makes of an account's row. -/
def Mutation.rowAfter (m : Mutation) (actorId targetId : Text) (u : UserRow) : Option UserRow :=
  match m with
  | .changeRole newRole => some (rewriteUser targetId (fun u => { u with role := newRole }) u)
  | .deactivate now => some (rewriteUser targetId (fun u => { u with disabledAt := some now }) u)
  | .reactivate => some (rewriteUser targetId (fun u => { u with disabledAt := none }) u)
  | .remove => if u.id = targetId then none else some u
  | .transferOwnership => some (rewriteUser targetId (fun u => { u with role := .owner })
      (rewriteUser actorId (fun u => { u with role := .admin }) u))

variable {m : Mutation} {actorId targetId : Text} {u : UserRow}

theorem find?_updateUsers : (m.updateUsers actorId targetId db).users.find? c =
    (db.users.find? c).bind (m.rowAfter actorId targetId) := by
  have hone : ∀ (v : Text) (f : UserRow → UserRow) (d : Tables),
      (updateUser v f d).users.find? c = (d.users.find? c).map (rewriteUser v f) := by
    intro v f d
    rw [updateUser, Table.find?_updateAll]
  cases m with
  | changeRole newRole =>
    rw [Mutation.updateUsers, hone]
    cases db.users.find? c <;> rfl
  | deactivate now =>
    rw [Mutation.updateUsers, hone]
    cases db.users.find? c <;> rfl
  | reactivate =>
    rw [Mutation.updateUsers, hone]
    cases db.users.find? c <;> rfl
  | remove =>
    rw [Mutation.updateUsers, deleteUser, Table.find?_deleteWhere]
    cases db.users.find? c with
    | none => rfl
    | some u =>
      by_cases h : u.id = targetId
      · simp [Mutation.rowAfter, h]
      · simp [Mutation.rowAfter, h]
  | transferOwnership =>
    rw [Mutation.updateUsers, hone, hone]
    cases db.users.find? c <;> rfl

theorem apiKeys_updateUsers : (m.updateUsers actorId targetId db).apiKeys = db.apiKeys := by
  cases m <;> rfl

/-- An action changes its two parties only. -/
theorem rowAfter_of_ne (ha : u.id ≠ actorId) (ht : u.id ≠ targetId) :
    m.rowAfter actorId targetId u = some u := by
  cases m <;> simp [Mutation.rowAfter, rewriteUser, ha, ht]

/-- Only a demotion makes a member. -/
theorem role_rowAfter {u' : UserRow} (h : m.rowAfter actorId targetId u = some u')
    (hm : u'.role = .member) :
    u.role = .member ∨ m = .changeRole .member ∧ u.id = targetId := by
  cases m with
  | changeRole newRole =>
    cases h
    unfold rewriteUser at hm
    split_ifs at hm with ht
    · exact .inr ⟨congrArg _ hm, ht⟩
    · exact .inl hm
  | deactivate now =>
    cases h
    unfold rewriteUser at hm
    split_ifs at hm <;> exact .inl hm
  | reactivate =>
    cases h
    unfold rewriteUser at hm
    split_ifs at hm <;> exact .inl hm
  | remove =>
    unfold Mutation.rowAfter at h
    split_ifs at h
    cases h
    exact .inl hm
  | transferOwnership =>
    cases h
    unfold rewriteUser at hm
    split_ifs at hm
    · exact .inl hm

/-- Only a deactivation and a removal, which pick the active keys, disable an account. -/
theorem enabled_rowAfter (hd : u.disabled = false) :
    (∃ u', m.rowAfter actorId targetId u = some u' ∧ u'.disabled = false) ∨
      (∀ k, m.selectsKey k = k.isActive) ∧ (∀ k, (m.setKey k).isActive = false) ∧
        u.id = targetId := by
  cases m with
  | changeRole newRole =>
    refine .inl ⟨_, rfl, ?_⟩
    unfold rewriteUser
    split_ifs <;> exact hd
  | deactivate now =>
    by_cases ht : u.id = targetId
    · exact .inr ⟨fun _ => rfl, fun _ => rfl, ht⟩
    · exact .inl ⟨u, by simp [Mutation.rowAfter, rewriteUser, ht], hd⟩
  | reactivate =>
    refine .inl ⟨_, rfl, ?_⟩
    unfold rewriteUser
    split_ifs
    · rfl
    · exact hd
  | remove =>
    by_cases ht : u.id = targetId
    · exact .inr ⟨fun _ => rfl, fun _ => rfl, ht⟩
    · exact .inl ⟨u, by simp [Mutation.rowAfter, ht], hd⟩
  | transferOwnership =>
    refine .inl ⟨_, rfl, ?_⟩
    unfold rewriteUser
    split_ifs <;> exact hd

end Writes

/-! ## The property, key by key -/

/-- An admin key's creator is no member, an active key's creator is there and enabled. -/
def KeyOk (db : Tables) (k : ApiKeyRow) : Prop :=
  ∀ c, k.creator = some c →
    (k.isAdmin = true → ∀ u, db.users.find? c = some u → u.role ≠ .member) ∧
      (k.isActive = true → ∃ u, db.users.find? c = some u ∧ u.disabled = false)

theorem privileges_iff {db : Tables} : Privileges db ↔ ∀ k ∈ db.apiKeys.rows, KeyOk db k := by
  constructor
  · intro h k hk c hc
    refine ⟨fun ha u hu hm => ?_, fun ha => ?_⟩
    · have hid : u.id = c := Table.key_of_find? hu
      have := h.member k hk u (Table.mem_of_find? hu) (hc.trans (congrArg some hid.symm)) hm
      simp [ha] at this
    · cases hu : db.users.find? c with
      | none =>
        have := h.removed k hk c hc (Table.find?_eq_none_iff.mp hu)
        simp [ha] at this
      | some u =>
        refine ⟨u, rfl, ?_⟩
        have hid : u.id = c := Table.key_of_find? hu
        rw [← Bool.not_eq_true]
        intro hd
        have := h.deactivated k hk u (Table.mem_of_find? hu) (hc.trans (congrArg some hid.symm)) hd
        simp [ha] at this
  · intro h
    constructor
    · intro k hk u hu hc hm
      rw [← Bool.not_eq_true]
      exact fun ha => (h k hk u.id hc).1 ha u (Table.find?_of_mem hu) hm
    · intro k hk u hu hc hd
      rw [← Bool.not_eq_true]
      intro ha
      obtain ⟨u', hu', hd'⟩ := (h k hk u.id hc).2 ha
      rw [Table.find?_of_mem hu] at hu'
      cases hu'
      simp [hd] at hd'
    · intro k hk c hc hn
      rw [← Bool.not_eq_true]
      intro ha
      obtain ⟨u', hu', _⟩ := (h k hk c hc).2 ha
      exact hn (Table.mem_keys_of_find? hu')

/-! ## What each transaction relies on -/

/-- The target is there, and its keys that match are among those the update picked. -/
def Picked (m : Mutation) (targetId : Text) (candidates : List Text) (db : Tables) : Prop :=
  targetId ∈ db.users.keys ∧ ∀ k ∈ db.apiKeys.rows, k.creator = some targetId →
    m.selectsKey k = true → k.id ∈ candidates

/-- What a phase knows of the rows it has locked. -/
def Relies : Phase → Tables → Prop
  | .creatorLocked call creator, db =>
    call.creator = some creator.id ∧ db.users.find? creator.id = some creator
  | .keyInserted call isAdmin, db =>
    KeyOk db { id := call.id, creator := call.creator, isAdmin := isAdmin }
  | .targetLocked _ _ target, db => target.id ∈ db.users.keys
  | .keysPicked m _ target candidates, db | .keysUpdated m _ target candidates, db =>
    Picked m target.id candidates db
  | .userDeleted _ target candidates _, db => Picked .remove target.id candidates db
  | .keyPicked .., _ | .keyUpdated .., _ | .owned .., _ | .actorLocked .., _ | .ended, _ => True

/-- The account's row is as it was. -/
def SameUser : RowKey → Tables → Tables → Prop
  | .user u, db, db' => db'.users.find? u = db.users.find? u
  | .ownerLock, _, _ | .apiKey _, _, _ => True

/-- No key of the account has come to match an update of its keys. -/
def NoMoreKeys : RowKey → Tables → Tables → Prop
  | .user u, db, db' => ∀ m : Mutation, ∀ k' ∈ db'.apiKeys.rows, k'.creator = some u →
      m.selectsKey k' = true →
      ∃ k ∈ db.apiKeys.rows, k.id = k'.id ∧ k.creator = some u ∧ m.selectsKey k = true
  | .ownerLock, _, _ | .apiKey _, _, _ => True

section Frame

variable {db db' : Tables} {p r : Phase}

theorem KeyOk.congr {k : ApiKeyRow} (h : KeyOk db k)
    (hu : ∀ c, k.creator = some c → db'.users.find? c = db.users.find? c) : KeyOk db' k := by
  intro c hc
  rw [hu c hc]
  exact h c hc

theorem mem_keys_congr {u : Text} (hs : db'.users.find? u = db.users.find? u)
    (h : u ∈ db.users.keys) : u ∈ db'.users.keys := by
  by_contra hn
  rw [← Table.find?_eq_none_iff, hs, Table.find?_eq_none_iff] at hn
  exact hn h

theorem Picked.congr {m : Mutation} {targetId : Text} {candidates : List Text}
    (h : Picked m targetId candidates db) (hu : SameUser (.user targetId) db db')
    (hk : NoMoreKeys (.user targetId) db db') : Picked m targetId candidates db' := by
  refine ⟨mem_keys_congr hu h.1, fun k' hk' hc hm => ?_⟩
  obtain ⟨k, hmem, hid, hc, hm⟩ := hk m k' hk' hc hm
  rw [← hid]
  exact h.2 k hmem hc hm

theorem relies_congr (hu : ∀ k, Store.Pins locks r k → SameUser k db db')
    (hk : ∀ k, Store.Changes locks r k → NoMoreKeys k db db') (h : Relies r db) : Relies r db' := by
  -- an action holds its target in a mode that pins it and keeps others from pinning it
  have htarget : ∀ u, (RowKey.user u, Mode.noKeyUpdate) ∈ locks r →
      SameUser (.user u) db db' ∧ NoMoreKeys (.user u) db db' :=
    fun u hm => ⟨hu _ ⟨_, hm, rfl⟩, hk _ ⟨_, hm, rfl⟩⟩
  cases r with
  | creatorLocked call creator =>
    have hs : SameUser (.user creator.id) db db' := hu _ ⟨.share, by simp [locks], rfl⟩
    exact ⟨h.1, hs.trans h.2⟩
  | keyInserted call isAdmin =>
    refine KeyOk.congr h fun c hc => ?_
    have hc : call.creator = some c := hc
    exact hu (.user c) ⟨.share, by simp [locks, hc], rfl⟩
  | targetLocked m actor target =>
    exact mem_keys_congr (htarget target.id (by simp [locks, partyLocks])).1 h
  | keysPicked m actor target candidates =>
    obtain ⟨hs, hn⟩ := htarget target.id (by simp [locks, partyLocks])
    exact Picked.congr h hs hn
  | keysUpdated m actor target candidates =>
    obtain ⟨hs, hn⟩ := htarget target.id (by simp [locks, partyLocks])
    exact Picked.congr h hs hn
  | userDeleted actor target candidates cleared =>
    obtain ⟨hs, hn⟩ := htarget target.id (by simp [locks, partyLocks])
    exact Picked.congr h hs hn
  | _ => trivial

/-- An action on other accounts leaves an account's row. -/
theorem find?_action_of_ne {m : Mutation} {actorId targetId u : Text} {candidates : List Text}
    (ha : u ≠ actorId) (ht : u ≠ targetId) :
    (m.updateUsers actorId targetId (m.updateKeys targetId candidates db)).users.find? u =
      db.users.find? u := by
  rw [find?_updateUsers]
  show (db.users.find? u).bind _ = _
  cases hf : db.users.find? u with
  | none => rfl
  | some row =>
    have hid : row.id = u := Table.key_of_find? hf
    exact rowAfter_of_ne (by rw [hid]; exact ha) (by rw [hid]; exact ht)

/-- A commit changes only accounts its transaction may change. -/
theorem sameUser_writes (k : RowKey) (hk : ¬ Store.Changes locks p k) :
    SameUser k db (writes p db) := by
  cases k with
  | user u =>
    have hne : ∀ v, (RowKey.user v, Mode.noKeyUpdate) ∈ locks p → u ≠ v := by
      rintro v hm rfl
      exact hk ⟨_, hm, rfl⟩
    cases p with
    | keysUpdated m actor target candidates =>
      exact find?_action_of_ne (hne actor.id (by simp [locks, partyLocks]))
        (hne target.id (by simp [locks, partyLocks]))
    | userDeleted actor target candidates cleared =>
      exact find?_action_of_ne (hne actor.id (by simp [locks, partyLocks]))
        (hne target.id (by simp [locks, partyLocks]))
    | _ => rfl
  | _ => trivial

theorem selectsKey_mono {m : Mutation} {k k' : ApiKeyRow}
    (hactive : k'.isActive = true → k.isActive = true)
    (hadmin : k'.isAdmin = true → k.isAdmin = true) (h : m.selectsKey k' = true) :
    m.selectsKey k = true := by
  cases m with
  | changeRole newRole => cases newRole <;> first | exact hadmin h | exact h
  | deactivate now => exact hactive h
  | remove => exact hactive h
  | reactivate => exact h
  | transferOwnership => exact h

/-- An update that sets no flag makes no key match. -/
theorem noMoreKeys_updateKeys {q : ApiKeyRow → Bool} {f : ApiKeyRow → ApiKeyRow}
    (hactive : ∀ k, (f k).isActive = true → k.isActive = true)
    (hadmin : ∀ k, (f k).isAdmin = true → k.isAdmin = true) (u : Text) :
    NoMoreKeys (.user u) db (updateKeys q f db) := by
  intro m k' hk' hc hm
  obtain ⟨k, hk, rfl⟩ := mem_updateKeys.mp hk'
  rw [rewrite_creator] at hc
  refine ⟨k, hk, (rewrite_id q f k).symm, hc, ?_⟩
  exact selectsKey_mono (rewrite_isActive hactive) (rewrite_isAdmin hadmin) hm

theorem noMoreKeys_action {m : Mutation} {actorId targetId u : Text} {candidates : List Text} :
    NoMoreKeys (.user u) db
      (m.updateUsers actorId targetId (m.updateKeys targetId candidates db)) := by
  have hkeys : NoMoreKeys (.user u) db (m.updateKeys targetId candidates db) :=
    noMoreKeys_updateKeys (fun _ => setKey_isActive) (fun _ => setKey_isAdmin) u
  intro m' k' hk'
  rw [apiKeys_updateUsers] at hk'
  exact hkeys m' k' hk'

/-- The phase is about to commit a promotion. -/
def Phase.promotes : Phase → Bool
  | .keyUpdated (.setAdmin isAdmin) _ => isAdmin
  | .keyUpdated (.revoke _) _ | .creatorLocked .. | .keyInserted .. | .keyPicked .. | .owned ..
  | .actorLocked .. | .targetLocked .. | .keysPicked .. | .keysUpdated .. | .userDeleted ..
  | .ended => false

theorem set_isAdmin {update : KeyUpdate} {id : Text} {k : ApiKeyRow}
    (hp : (Phase.keyUpdated update id).promotes = false) (h : (update.set k).isAdmin = true) :
    k.isAdmin = true := by
  cases update <;> simp_all [KeyUpdate.set, Phase.promotes]

/-- A commit that is no promotion adds keys only to an account it pins. -/
theorem noMoreKeys_writes (hp : p.promotes = false) (k : RowKey) (hk : ¬ Store.Pins locks p k) :
    NoMoreKeys k db (writes p db) := by
  cases k with
  | user u =>
    cases p with
    | keyInserted call isAdmin =>
      intro m k' hk' hc hm
      rcases mem_of_insertKey hk' with hk' | rfl
      · exact ⟨k', hk', rfl, hc, hm⟩
      · have hc : call.creator = some u := hc
        exact absurd ⟨.share, by simp [locks, hc], rfl⟩ hk
    | keyUpdated update id =>
      exact noMoreKeys_updateKeys (fun _ => set_isActive) (fun _ => set_isAdmin hp) u
    | keysUpdated m actor target candidates => exact noMoreKeys_action
    | userDeleted actor target candidates cleared => exact noMoreKeys_action
    | _ => exact fun m k hk hc hm => ⟨k, hk, rfl, hc, hm⟩
  | _ => trivial

end Frame

/-! ## Commits -/

section Commits

variable {db : Tables} {s : State} {p : Phase} {t : ℕ}

/-- An action leaves the keys in order: those it had to reach are among the ones it picked. -/
theorem privileges_action {m : Mutation} {targetId : Text} {candidates : List Text}
    (h : Privileges db) (hp : Picked m targetId candidates db) (actorId : Text) :
    Privileges (m.updateUsers actorId targetId (m.updateKeys targetId candidates db)) := by
  rw [privileges_iff] at h ⊢
  intro k' hk'
  rw [apiKeys_updateUsers] at hk'
  obtain ⟨k, hk, rfl⟩ := mem_updateKeys.mp hk'
  intro c hc
  rw [rewrite_creator] at hc
  -- a key of the target that matches is rewritten
  have hreached : c = targetId → m.selectsKey k = true →
      rewrite (fun k => decide (k.id ∈ candidates) && createdByUserId db k == some targetId &&
        m.selectsKey k) m.setKey k = { m.setKey k with id := k.id, creator := k.creator } := by
    rintro rfl hm
    have hby : createdByUserId db k = some c := createdByUserId_eq_some.mpr ⟨hc, hp.1⟩
    rw [rewrite, if_pos]
    simp [hp.2 k hk hc hm, hby, hm]
  refine ⟨fun ha u hu hmem => ?_, fun ha => ?_⟩
  · rw [find?_updateUsers] at hu
    obtain ⟨u₀, hu₀, hrow⟩ := Option.bind_eq_some_iff.mp hu
    have hadmin := rewrite_isAdmin (fun _ => setKey_isAdmin) ha
    rcases role_rowAfter hrow hmem with hmem | ⟨rfl, hid⟩
    · exact (h k hk c hc).1 hadmin u₀ hu₀ hmem
    · have hct : c = targetId := (Table.key_of_find? hu₀).symm.trans hid
      rw [hreached hct hadmin] at ha
      cases ha
  · have hactive := rewrite_isActive (fun _ => setKey_isActive) ha
    obtain ⟨u₀, hu₀, hd⟩ := (h k hk c hc).2 hactive
    rcases enabled_rowAfter hd with ⟨u, hrow, hd⟩ | ⟨hsel, hset, hid⟩
    · refine ⟨u, ?_, hd⟩
      rw [find?_updateUsers]
      exact Option.bind_eq_some_iff.mpr ⟨u₀, hu₀, hrow⟩
    · have hct : c = targetId := (Table.key_of_find? hu₀).symm.trans hid
      rw [hreached hct ((hsel k).trans hactive)] at ha
      exact absurd ha (by rw [hset]; decide)

theorem privileges_insert {row : ApiKeyRow} (h : Privileges db) (hrow : KeyOk db row) :
    Privileges (insertKey row db) := by
  rw [privileges_iff] at h ⊢
  intro k hk
  rcases mem_of_insertKey hk with hk | rfl
  · exact h k hk
  · exact hrow

/-- An update of one key, where a key that becomes an admin key has no member as its creator. -/
theorem privileges_updateKey {update : KeyUpdate} {id : Text} (h : Privileges db)
    (hadmin : ∀ k ∈ db.apiKeys.rows, k.id = id → (update.set k).isAdmin = true →
      k.isAdmin = true ∨ ∀ c ∈ k.creator, ∀ u ∈ db.users.rows, u.id = c → u.role ≠ .member) :
    Privileges (updateKeys (·.id == id) update.set db) := by
  rw [privileges_iff] at h ⊢
  intro k' hk'
  obtain ⟨k, hk, rfl⟩ := mem_updateKeys.mp hk'
  intro c hc
  rw [rewrite_creator] at hc
  refine ⟨fun ha u hu => ?_, fun ha => (h k hk c hc).2 (rewrite_isActive (fun _ => set_isActive) ha)⟩
  unfold rewrite at ha
  split_ifs at ha with hid
  · rcases hadmin k hk (beq_iff_eq.mp hid) ha with ha | hmay
    · exact (h k hk c hc).1 ha u hu
    · exact hmay c hc u (Table.mem_of_find? hu) (Table.key_of_find? hu)
  · exact (h k hk c hc).1 ha u hu

theorem MayPromote.set {update : KeyUpdate} {id : Text}
    (hC : UnracedAt s (.keyUpdated update id)) {k : ApiKeyRow} (hk : k ∈ s.db.apiKeys.rows)
    (hid : k.id = id) (ha : (update.set k).isAdmin = true) :
    k.isAdmin = true ∨ ∀ c ∈ k.creator, ∀ u ∈ s.db.users.rows, u.id = c → u.role ≠ .member := by
  cases update with
  | revoke scope => exact .inl ha
  | setAdmin isAdmin =>
    have hset : isAdmin = true := ha
    subst hset
    exact .inr fun c hc => (hC k hk hid c hc).1

/-- **Every commit keeps the property.** -/
theorem privileges_writes (h : Privileges s.db) (hp : Relies p s.db) (hC : UnracedAt s p) :
    Privileges (writes p s.db) := by
  cases p with
  | keyInserted call isAdmin => exact privileges_insert h hp
  | keyUpdated update id => exact privileges_updateKey h fun k hk => MayPromote.set hC hk
  | keysUpdated m actor target candidates => exact privileges_action h hp actor.id
  | userDeleted actor target candidates cleared => exact privileges_action h hp actor.id
  | _ => exact h

/-- A promotion adds the key to no update of keys that has not picked it. -/
theorem Picked.promote {m : Mutation} {targetId id : Text} {candidates : List Text}
    (h : Picked m targetId candidates db)
    (hdemote : m = .changeRole .member → ∀ k ∈ db.apiKeys.rows, k.id = id →
      k.creator = some targetId → id ∈ candidates) :
    Picked m targetId candidates (updateKeys (·.id == id) (KeyUpdate.setAdmin true).set db) := by
  refine ⟨h.1, fun k' hk' hc hm => ?_⟩
  obtain ⟨k, hk, rfl⟩ := mem_updateKeys.mp hk'
  rw [rewrite_creator] at hc
  rw [rewrite_id]
  unfold rewrite at hm
  split_ifs at hm with hid
  · have hid : k.id = id := beq_iff_eq.mp hid
    by_cases hd : m = .changeRole .member
    · rw [hid]
      exact hdemote hd k hk hid hc
    · refine h.2 k hk hc ?_
      cases m with
      | changeRole newRole => cases newRole <;> simp_all [Mutation.selectsKey]
      | _ => exact hm
  · exact h.2 k hk hc hm

theorem relies_promotion {u : ℕ} {r : Phase} {id : Text} (hC : MayPromote s id)
    (hr : s.phase? u = some r) (h : Relies r s.db) :
    Relies r (updateKeys (·.id == id) (KeyUpdate.setAdmin true).set s.db) := by
  have hdemote : ∀ {targetId candidates}, r.demotes = some (targetId, candidates) →
      ∀ k ∈ s.db.apiKeys.rows, k.id = id → k.creator = some targetId → id ∈ candidates := by
    intro targetId candidates hd k hk hid hc
    exact (hC k hk hid targetId hc).2 (u, r) (Table.get?_eq_some_iff.mp hr) _ hd rfl
  cases r with
  | keysPicked m actor target candidates =>
    refine Picked.promote h ?_
    rintro rfl
    exact hdemote rfl
  | keysUpdated m actor target candidates =>
    refine Picked.promote h ?_
    rintro rfl
    exact hdemote rfl
  | userDeleted actor target candidates cleared =>
    refine Picked.promote h ?_
    rintro ⟨⟩
  | _ => exact h

end Commits

/-! ## Runs -/

/-- What every reachable state keeps. -/
structure Inv (s : State) : Prop where
  exclusive : s.Exclusive locks
  relies : s.Facts Relies
  privileges : Privileges s.db

section Steps

variable {s : State} {t : ℕ} {p : Phase}

theorem inv_init {db : Tables} (h : Privileges db) : Inv (Store.init db) :=
  ⟨Store.exclusive_init db, Store.facts_init db, h⟩

theorem Inv.put_free (h : Inv s) (hl : locks p = []) (hp : Relies p s.db) : Inv (s.put t p) :=
  ⟨h.exclusive.put_free hl, h.relies.put hp, h.privileges⟩

theorem Inv.ended (h : Inv s) : Inv (s.put t .ended) := h.put_free rfl trivial

theorem Inv.enter (h : Inv s) (hp : Relies p s.db) : Inv (s.enter locks t p) :=
  ⟨h.exclusive.enter, h.relies.enter fun _ => hp, by rw [Store.db_enter]; exact h.privileges⟩

theorem Inv.lockUser (h : Inv s) {userId : Text} {q : UserRow → Phase}
    (hq : ∀ row, s.db.users.find? userId = some row → Relies (q row) s.db) :
    Inv (lockUser s t userId q) := by
  unfold ApiKeys.lockUser
  cases hf : s.db.users.find? userId with
  | none => exact h.ended
  | some row => exact h.enter (hq row hf)

theorem Inv.insert (h : Inv s) {call : CreateCall} {isAdmin : Bool}
    (hp : Relies (.keyInserted call isAdmin) s.db) : Inv (insert s t call isAdmin) := by
  unfold ApiKeys.insert
  split_ifs
  · exact h.ended
  · exact h.enter hp

theorem Inv.commit (h : Inv s) (ht : s.phase? t = some p) (hC : UnracedAt s p) :
    Inv (s.commit writes t p .ended) := by
  have hp := h.relies t p ht
  refine ⟨h.exclusive.commit rfl, ?_, privileges_writes h.privileges hp hC⟩
  by_cases hpro : p.promotes = true
  · refine h.relies.commit_others (fun u r hr _ hfact => ?_) trivial
    cases p with
    | keyUpdated update id =>
      cases update with
      | revoke scope => cases hpro
      | setAdmin isAdmin =>
        have hset : isAdmin = true := hpro
        subst hset
        exact relies_promotion hC hr hfact
    | _ => cases hpro
  · exact h.relies.commit h.exclusive ht SameUser NoMoreKeys sameUser_writes
      (noMoreKeys_writes (Bool.not_eq_true _ ▸ hpro)) (fun _ _ => relies_congr) trivial

/-- The update of the target's keys picks those that match. -/
theorem picked_candidates {m : Mutation} {db : Tables} {targetId : Text}
    (h : targetId ∈ db.users.keys) : Picked m targetId (m.candidates db targetId) db := by
  refine ⟨h, fun k hk hc hm => List.mem_map.mpr ⟨k, List.mem_filter.mpr ⟨hk, ?_⟩, rfl⟩⟩
  rw [createdByUserId_eq_some.mpr ⟨hc, h⟩, hm]
  simp

/-- One statement of a call. -/
theorem Inv.nextStatement (h : Inv s) (ht : s.phase? t = some p) (hC : UnracedAt s p) (ok : Bool) :
    Inv (nextStatement s t ok p) := by
  have hp := h.relies t p ht
  cases p with
  | creatorLocked call creator =>
    rw [ApiKeys.nextStatement]
    split_ifs with hd
    · exact h.ended
    · refine h.insert fun c hc => ?_
      -- the creator's row is held: what was read of it is what is committed
      have hcc : call.creator = some c := hc
      rw [hp.1, Option.some.injEq] at hcc
      rw [← hcc, hp.2]
      refine ⟨fun ha u hu => ?_, fun _ => ⟨creator, rfl, by simpa using hd⟩⟩
      cases hu
      have ha : call.isAdmin = true ∧ adminRole creator.role = true := by simpa using ha
      intro hm
      rw [hm] at ha
      cases ha.2
  | keyInserted call isAdmin => exact h.commit ht hC
  | keyPicked update id admins =>
    rw [ApiKeys.nextStatement]
    split_ifs
    · exact h.ended
    · exact h.enter trivial
  | keyUpdated update id => exact h.commit ht hC
  | owned m actorId targetId => exact h.lockUser fun _ _ => trivial
  | actorLocked m actor targetId =>
    rw [ApiKeys.nextStatement]
    split_ifs
    · exact h.ended
    · refine h.lockUser fun target hf => ?_
      show target.id ∈ s.db.users.keys
      rw [Table.key_of_find? hf]
      exact Table.mem_keys_of_find? hf
  | targetLocked m actor target =>
    rw [ApiKeys.nextStatement]
    split_ifs
    · exact h.ended
    · refine ⟨h.exclusive.put_held ht fun l hl => hl, h.relies.put ?_, h.privileges⟩
      exact picked_candidates hp
  | keysPicked m actor target candidates => exact h.enter hp
  | keysUpdated m actor target candidates =>
    rw [ApiKeys.nextStatement]
    split_ifs with hm
    · subst hm
      exact h.enter hp
    · exact h.commit ht hC
  | userDeleted actor target candidates cleared => exact h.commit ht hC
  | ended => exact h

/-- The first statement of a call. -/
theorem Inv.start (h : Inv s) (call : Call) : Inv (start s t call) := by
  cases call with
  | createApiKey call =>
    rw [ApiKeys.start]
    cases hc : call.creator with
    | none =>
      refine h.insert fun c hcc => ?_
      have hcc : call.creator = some c := hcc
      rw [hc] at hcc
      cases hcc
    | some c =>
      refine h.lockUser fun row hf => ?_
      have hid : row.id = c := Table.key_of_find? hf
      exact ⟨by rw [hc, hid], by rw [hid]; exact hf⟩
  | updateKey update id =>
    rw [ApiKeys.start]
    split_ifs
    · exact h.put_free rfl trivial
    · exact h.ended
  | runAccountAction m actorId targetId =>
    rw [ApiKeys.start]
    split_ifs
    · exact h.enter trivial
    · exact h.ended

theorem Inv.step (h : Inv s) {a : Action} (hC : Unraced s a) : Inv (step s a) := by
  cases a with
  | start t call =>
    rw [ApiKeys.step]
    split_ifs
    · exact h
    · exact h.start call
  | next t ok =>
    rw [ApiKeys.step]
    cases ht : s.phase? t with
    | none => exact h
    | some p => exact h.nextStatement ht (hC p ht) ok
  | fail t =>
    rw [ApiKeys.step]
    split_ifs
    · exact h.ended
    · exact h

end Steps

/-- **Keys never outrank their creators.** In every run without a raced promotion, in every
committed state. -/
theorem privileges_unraced {db : Tables} (h : Privileges db) {as : List Action}
    (hC : Along step Unraced (Store.init db) as) : Privileges (run step (Store.init db) as).db :=
  (invariant Inv (fun _ _ hi hc => hi.step hc) (inv_init h) hC).privileges

/-! ## Two runs -/

/-- An owner and an admin with one key. -/
def adminWithKey : Tables where
  users := ⟨[{ id := "usr_1", email := "o@x.org", role := .owner },
    { id := "usr_2", email := "a@x.org", role := .admin }], by decide⟩
  apiKeys := ⟨[{ id := "key_1", creator := some "usr_2" }], by decide⟩

theorem privileges_adminWithKey : Privileges adminWithKey where
  member := by decide
  deactivated := by decide
  removed k hk c hc hn := by
    obtain rfl := List.mem_singleton.mp hk
    cases hc
    exact absurd hn (by decide)

/-- The key is promoted, then its creator is made a member. -/
def promoteThenDemote : List Action :=
  [.start 0 (.updateKey (.setAdmin true) "key_1"), .next 0 true, .next 0 true,
    .start 1 (.runAccountAction (.changeRole .member) "usr_1" "usr_2"), .next 1 true, .next 1 true,
    .next 1 true, .next 1 true, .next 1 true]

/-- The promotion starts and is committed after the demotion has updated the keys, and before it is
committed. -/
def promoteMeanwhile : List Action :=
  [.start 1 (.runAccountAction (.changeRole .member) "usr_1" "usr_2"), .next 1 true, .next 1 true,
    .next 1 true, .next 1 true,
    .start 0 (.updateKey (.setAdmin true) "key_1"), .next 0 true, .next 0 true, .next 1 true]

theorem privileges_unraced_promoteThenDemote :
    Privileges (run step (Store.init adminWithKey) promoteThenDemote).db ∧
      (run step (Store.init adminWithKey) promoteThenDemote).db.users.rows.map (·.role) =
        [.owner, .member] :=
  ⟨privileges_unraced privileges_adminWithKey (by decide +kernel), by decide +kernel⟩

/-- A member has an active admin key. -/
theorem not_privileges_promoteMeanwhile :
    (run step (Store.init adminWithKey) promoteMeanwhile).db.users.find? "usr_2" =
        some { id := "usr_2", email := "a@x.org", role := .member } ∧
      (run step (Store.init adminWithKey) promoteMeanwhile).db.apiKeys.rows =
        [{ id := "key_1", creator := some "usr_2", isAdmin := true }] ∧
      ¬ Privileges (run step (Store.init adminWithKey) promoteMeanwhile).db := by
  refine ⟨by decide +kernel, by decide +kernel, fun h => ?_⟩
  have hm := h.member { id := "key_1", creator := some "usr_2", isAdmin := true } (by decide +kernel)
    { id := "usr_2", email := "a@x.org", role := .member } (by decide +kernel) rfl rfl
  cases hm

end BunMail.ApiKeys
