import BunMail.Lib.History
import BunMail.Lib.Run
import BunMail.Users.Invitations

/-!
# Invitations are spent once

Whatever the interleaving, what is committed is a history in which each event is allowed after those
before it: an address has one open invitation at most; an invitation is accepted once, not after it was
revoked, and for an address that no account holds; its account has its address and its role; and an
actor replaces or revokes only what it may grant.

The log is that history, and `Inv` reads the tables off it.
-/

namespace BunMail.Users.Invite

open Transactions History
open Admin (TokenRow)

/-! ## What the writes read and change -/

/-- What never depends on the accounts. -/
def columns (r : TokenRow) : TokenRow := { r with invitedBy := none }

/-- As it was issued. -/
def fresh (r : TokenRow) : TokenRow := { r with usedAt := none, revokedAt := none }

/-- The columns of an invitation. -/
def tokenAt (db : Db) (id : Text) : Option TokenRow := (db.tokens.find? id).map columns

/-- What a write makes of an invitation. -/
def Write.onToken (id : Text) : Write → Option TokenRow → Option TokenRow
  | .revoke id' _ at', r => if id = id' then r.map fun r => { r with revokedAt := some at' } else r
  | .accept id' _ at', r => if id = id' then r.map fun r => { r with usedAt := some at' } else r
  | .insertToken row, r => if id = row.id then some (columns row) else r
  | .rely _, r | .insertUser _, r | .updateUser _ _ _, r | .removeUser _, r => r

/-- Whether an account holds the address after a write. -/
def Write.onUser (email : Text) : Write → Bool → Bool
  | .accept _ account _, held | .insertUser account, held => decide (email = account.email) || held
  | .removeUser email', held => !decide (email = email') && held
  | .rely _, held | .revoke _ _ _, held | .insertToken _, held | .updateUser _ _ _, held => held

theorem id_of_tokenAt {db : Db} {id : Text} {r : TokenRow} (h : tokenAt db id = some r) : r.id = id := by
  obtain ⟨x, hx, rfl⟩ := Option.map_eq_some_iff.mp h
  have hkey : x.id = id := Table.key_of_find? hx
  exact hkey

/-- An `UPDATE` of one row, column by column. -/
theorem tokenAt_rewrite {db db' : Db} {id : Text} {f : TokenRow → TokenRow}
    (htokens : db'.tokens = db.rewriteToken id f)
    (hid : ∀ r, (f r).id = r.id) (hf : ∀ r, columns (f r) = f (columns r)) (id' : Text) :
    tokenAt db' id' = if id' = id then (tokenAt db id').map f else tokenAt db id' := by
  unfold tokenAt
  rw [htokens]
  unfold Db.rewriteToken
  rw [Table.find?_updateAll]
  cases hfind : db.tokens.find? id' with
  | none => simp
  | some r =>
    have hkey : r.id = id' := Table.key_of_find? hfind
    unfold rewrite
    by_cases heq : id' = id
    · have hsame : ({ f r with id := r.id } : TokenRow) = f r := by rw [← hid r]
      rw [Option.map_some, Option.map_some, if_pos heq, if_pos (hkey.trans heq), hsame, Option.map_some, hf]
      rfl
    · rw [Option.map_some, if_neg heq, if_neg fun h => heq (hkey.symm.trans h)]

theorem tokenAt_apply (w : Write) (db : Db) (id : Text) :
    tokenAt (w.apply db) id = w.onToken id (tokenAt db id) := by
  cases w with
  | rely found => rfl
  | insertUser account => rfl
  | updateUser email role disabledAt => rfl
  | revoke id' reason at' =>
    exact tokenAt_rewrite (f := fun r => { r with revokedAt := some at' }) rfl (fun _ => rfl) (fun _ => rfl) id
  | accept id' account at' =>
    exact tokenAt_rewrite (f := fun r => { r with usedAt := some at' }) rfl (fun _ => rfl) (fun _ => rfl) id
  | insertToken row =>
    unfold tokenAt Write.apply Write.onToken
    dsimp only
    split_ifs with heq
    · subst heq
      rw [Table.find?_upsert_self]
      cases db.tokens.find? row.id <;> rfl
    · rw [Table.find?_upsert_ne _ heq]
  | removeUser email =>
    unfold tokenAt Write.apply Write.onToken
    dsimp only
    rw [Table.find?_updateAll, Option.map_map]
    congr 1
    funext r
    show columns (orphan _ r) = columns r
    unfold orphan columns
    split_ifs <;> rfl

theorem emailHasAccount_put (db : Db) (account : UserRow) (email : Text) (tokens : Table TokenRow.id)
    (log : List Event) : emailHasAccount ⟨db.putUser account, tokens, db.now, log⟩ email =
      (decide (email = account.email) || emailHasAccount db email) := by
  unfold emailHasAccount Db.putUser
  dsimp only
  by_cases heq : email = account.email
  · subst heq
    rw [Table.find?_upsert_self, decide_eq_true rfl]
    rfl
  · rw [Table.find?_upsert_ne _ heq, decide_eq_false heq]
    rfl

theorem emailHasAccount_apply (w : Write) (db : Db) (email : Text) :
    emailHasAccount (w.apply db) email = w.onUser email (emailHasAccount db email) := by
  cases w with
  | rely found => rfl
  | revoke id reason at' => rfl
  | insertToken row => rfl
  | accept id account at' => exact emailHasAccount_put db account email _ _
  | insertUser account => exact emailHasAccount_put db account email _ _
  | updateUser email' role disabledAt =>
    unfold emailHasAccount Write.apply Write.onUser
    dsimp only
    rw [Table.find?_updateAll, Option.isSome_map]
  | removeUser email' =>
    unfold emailHasAccount Write.apply Write.onUser
    dsimp only
    rw [Table.find?_deleteWhere]
    cases hfind : db.users.find? email with
    | none => simp
    | some u =>
      have hkey := Table.key_of_find? hfind
      by_cases heq : email = email'
      · simp [hkey, heq]
      · simp [hkey, heq]

/-! ## What the writes need -/

/-- The actor may grant the role of what it replaces or revokes while it is live. -/
def Reason.Permits (reason : Reason) (at' : Time) (r : TokenRow) : Prop :=
  ∀ actorRole, reason.actorRole = some actorRole → at' < r.expiresAt →
    ∃ role, r.role = some role ∧ canGrantRole actorRole role = true

/-- The open invitations of the address are so. -/
def EachOpen (db : Db) (email : Text) (P : TokenRow → Prop) : Prop :=
  ∀ id r, tokenAt db id = some r → r.isOpen = true → r.email = some email → P r

/-- What a write needs. -/
def Write.Ok : Write → Db → Prop
  | .rely (.replaceable email actorRole at'), db => EachOpen db email ((Reason.replaced actorRole).Permits at')
  | .rely (.noneOpen email), db => EachOpen db email fun _ => False
  | .rely (.spendable id email role at'), db =>
    ∃ r, tokenAt db id = some r ∧ r.isOpen = true ∧ r.email = some email ∧ r.role = some role ∧ at' < r.expiresAt
  | .revoke id reason at', db => ∃ r, tokenAt db id = some r ∧ r.isOpen = true ∧ reason.Permits at' r
  | .insertToken row, db => row.usedAt = none ∧ row.revokedAt = none ∧ tokenAt db row.id = none ∧
    (∀ id r, tokenAt db id = some r → r.tokenHash ≠ row.tokenHash) ∧
    ∃ email, row.email = some email ∧ EachOpen db email fun _ => False
  | .accept id account at', db => (∃ r, tokenAt db id = some r ∧ r.isOpen = true ∧
    r.email = some account.email ∧ r.role = some account.role ∧ at' < r.expiresAt) ∧
    emailHasAccount db account.email = false
  | .insertUser account, db => emailHasAccount db account.email = false
  | .updateUser _ _ _, _ | .removeUser _, _ => True

/-- As far as the holder of a row relies on it, `db'` is as `db`. -/
def Agree : RowKey → Db → Db → Prop
  | .token id, db, db' => tokenAt db id = tokenAt db' id
  | .tokenHash hash, db, db' => ∀ id r, tokenAt db' id = some r → r.tokenHash = hash →
    ∃ r₀, tokenAt db id = some r₀ ∧ r₀.tokenHash = hash
  | .address email, db, db' => EachOpen db' email fun r => tokenAt db r.id = some r
  | .user email, db, db' => emailHasAccount db email = false → emailHasAccount db' email = false

theorem Agree.refl (k : RowKey) (db : Db) : Agree k db db := by
  cases k with
  | token id => rfl
  | tokenHash hash => exact fun id r hr hhash => ⟨r, hr, hhash⟩
  | address email =>
    intro id r hr _ _
    rw [id_of_tokenAt hr]
    exact hr
  | user email => exact id

theorem Agree.trans {k : RowKey} {x y z : Db} (hxy : Agree k x y) (hyz : Agree k y z) : Agree k x z := by
  cases k with
  | token id => exact Eq.trans hxy hyz
  | tokenHash hash =>
    intro id r hr hhash
    obtain ⟨r₁, hr₁, hhash₁⟩ := hyz id r hr hhash
    exact hxy id r₁ hr₁ hhash₁
  | address email =>
    intro id r hr hopen hemail
    exact hxy r.id r (hyz id r hr hopen hemail) hopen hemail
  | user email => exact fun h => hyz (hxy h)

/-- What is open after a write was there before it, or is the invitation it inserts. -/
theorem open_apply {w : Write} {db : Db} {id : Text} {r : TokenRow} (hr : tokenAt (w.apply db) id = some r)
    (hopen : r.isOpen = true) : tokenAt db id = some r ∨ ∃ row, w = .insertToken row ∧ id = row.id ∧ r = columns row := by
  rw [tokenAt_apply] at hr
  cases w with
  | revoke id' reason at' =>
    unfold Write.onToken at hr
    dsimp only at hr
    split_ifs at hr
    · obtain ⟨x, -, rfl⟩ := Option.map_eq_some_iff.mp hr
      simp [TokenRow.isOpen] at hopen
    · exact .inl hr
  | accept id' account at' =>
    unfold Write.onToken at hr
    dsimp only at hr
    split_ifs at hr
    · obtain ⟨x, -, rfl⟩ := Option.map_eq_some_iff.mp hr
      simp [TokenRow.isOpen] at hopen
    · exact .inl hr
  | insertToken row =>
    unfold Write.onToken at hr
    dsimp only at hr
    split_ifs at hr with heq
    · exact .inr ⟨row, rfl, heq, (Option.some.inj hr).symm⟩
    · exact .inl hr
  | rely found => exact .inl hr
  | insertUser account => exact .inl hr
  | updateUser email role disabledAt => exact .inl hr
  | removeUser email => exact .inl hr

/-- An invitation after a write was there before it, or is the one it inserts. -/
theorem fresh_apply {w : Write} {db : Db} {id : Text} {r : TokenRow} (hr : tokenAt (w.apply db) id = some r) :
    (∃ r₀, tokenAt db id = some r₀ ∧ fresh r₀ = fresh r) ∨
      ∃ row, w = .insertToken row ∧ id = row.id ∧ r = columns row := by
  rw [tokenAt_apply] at hr
  cases w with
  | revoke id' reason at' =>
    unfold Write.onToken at hr
    dsimp only at hr
    split_ifs at hr
    · obtain ⟨x, hx, rfl⟩ := Option.map_eq_some_iff.mp hr
      exact .inl ⟨x, hx, rfl⟩
    · exact .inl ⟨r, hr, rfl⟩
  | accept id' account at' =>
    unfold Write.onToken at hr
    dsimp only at hr
    split_ifs at hr
    · obtain ⟨x, hx, rfl⟩ := Option.map_eq_some_iff.mp hr
      exact .inl ⟨x, hx, rfl⟩
    · exact .inl ⟨r, hr, rfl⟩
  | insertToken row =>
    unfold Write.onToken at hr
    dsimp only at hr
    split_ifs at hr with heq
    · exact .inr ⟨row, rfl, heq, (Option.some.inj hr).symm⟩
    · exact .inl ⟨r, hr, rfl⟩
  | rely found => exact .inl ⟨r, hr, rfl⟩
  | insertUser account => exact .inl ⟨r, hr, rfl⟩
  | updateUser email role disabledAt => exact .inl ⟨r, hr, rfl⟩
  | removeUser email => exact .inl ⟨r, hr, rfl⟩

/-- A write keeps what an invitation was issued as, unless it inserts one of the same id. -/
theorem kept_apply {w : Write} {db : Db} {id : Text} {r : TokenRow} (hr : tokenAt db id = some r)
    (hnew : ∀ row, w = .insertToken row → id ≠ row.id) :
    ∃ r', tokenAt (w.apply db) id = some r' ∧ fresh r' = fresh r := by
  rw [tokenAt_apply, hr]
  unfold Write.onToken
  cases w with
  | revoke id' reason at' =>
    dsimp only
    split_ifs
    · exact ⟨_, rfl, rfl⟩
    · exact ⟨r, rfl, rfl⟩
  | accept id' account at' =>
    dsimp only
    split_ifs
    · exact ⟨_, rfl, rfl⟩
    · exact ⟨r, rfl, rfl⟩
  | insertToken row =>
    dsimp only
    rw [if_neg (hnew row rfl)]
    exact ⟨r, rfl, rfl⟩
  | rely found => exact ⟨r, rfl, rfl⟩
  | insertUser account => exact ⟨r, rfl, rfl⟩
  | updateUser email role disabledAt => exact ⟨r, rfl, rfl⟩
  | removeUser email => exact ⟨r, rfl, rfl⟩

theorem agree_apply {w : Write} {k : RowKey} (db : Db) (hk : k ∉ w.rights) : Agree k db (w.apply db) := by
  cases k with
  | token id =>
    unfold Agree
    dsimp only
    rw [tokenAt_apply]
    cases w <;> simp_all [Write.rights, Write.onToken]
  | tokenHash hash =>
    intro id r hr hhash
    rcases fresh_apply hr with ⟨r₀, hr₀, hsame⟩ | ⟨row, rfl, -, rfl⟩
    · exact ⟨r₀, hr₀, (congrArg TokenRow.tokenHash hsame).trans hhash⟩
    · refine absurd ?_ hk
      have hrow : row.tokenHash = hash := hhash
      rw [← hrow]
      exact List.mem_cons_of_mem _ List.mem_cons_self
  | address email =>
    intro id r hr hopen hemail
    rcases open_apply hr hopen with hold | ⟨row, rfl, -, rfl⟩
    · rw [id_of_tokenAt hold]
      exact hold
    · refine absurd ?_ hk
      have hrow : row.email = some email := hemail
      show RowKey.address email ∈ _ :: _ :: row.email.toList.map RowKey.address
      rw [hrow]
      exact List.mem_cons_of_mem _ (List.mem_cons_of_mem _ (List.mem_singleton_self _))
  | user email =>
    intro hnone
    rw [emailHasAccount_apply, hnone]
    cases w <;> simp_all [Write.rights, Write.onUser]

theorem Agree.apply {k : RowKey} {db db' : Db} (w : Write) (h : Agree k db db') :
    Agree k (w.apply db) (w.apply db') := by
  cases k with
  | token id =>
    unfold Agree at h ⊢
    dsimp only at h ⊢
    rw [tokenAt_apply, tokenAt_apply, h]
  | user email =>
    intro hnone
    rw [emailHasAccount_apply] at hnone ⊢
    cases hheld : emailHasAccount db email with
    | false =>
      rw [hheld] at hnone
      rw [h hheld, hnone]
    | true =>
      -- only a removal makes the address free
      rw [hheld] at hnone
      cases w <;> simp_all [Write.onUser]
  | tokenHash hash =>
    intro id r hr hhash
    by_cases hinserts : ∃ row, w = .insertToken row ∧ id = row.id
    · obtain ⟨row, rfl, rfl⟩ := hinserts
      rw [tokenAt_apply] at hr ⊢
      exact ⟨r, by simpa [Write.onToken] using hr, hhash⟩
    · rcases fresh_apply hr with ⟨r₁, hr₁, hsame⟩ | ⟨row, hw, hid, -⟩
      · obtain ⟨r₀, hr₀, hhash₀⟩ := h id r₁ hr₁ ((congrArg TokenRow.tokenHash hsame).trans hhash)
        obtain ⟨r', hr', hsame'⟩ := kept_apply hr₀ fun row hw hid => hinserts ⟨row, hw, hid⟩
        exact ⟨r', hr', (congrArg TokenRow.tokenHash hsame').trans hhash₀⟩
      · exact absurd ⟨row, hw, hid⟩ hinserts
  | address email =>
    intro id r hr hopen hemail
    have hid := id_of_tokenAt hr
    rcases open_apply hr hopen with hold | ⟨row, rfl, rfl, rfl⟩
    · have hbefore : tokenAt db r.id = some r := h id r hold hopen hemail
      rw [hid] at hbefore ⊢
      rw [tokenAt_apply] at hr ⊢
      rw [hold] at hr
      rw [hbefore]
      exact hr
    · rw [tokenAt_apply]
      exact if_pos rfl

theorem EachOpen.of_agree {db db' : Db} {email : Text} {P : TokenRow → Prop}
    (h : Agree (.address email) db db') (heach : EachOpen db email P) : EachOpen db' email P := by
  intro id r hr hopen hemail
  exact heach r.id r (h id r hr hopen hemail) hopen hemail

theorem Write.Ok.of_agree {w : Write} {db db' : Db} (h : ∀ k ∈ w.rights, Agree k db db') (hok : w.Ok db) :
    w.Ok db' := by
  cases w with
  | rely found =>
    cases found with
    | replaceable email actorRole at' => exact EachOpen.of_agree (h (.address email) (by simp [Write.rights])) hok
    | noneOpen email => exact EachOpen.of_agree (h (.address email) (by simp [Write.rights])) hok
    | spendable id email role at' =>
      have hrow : tokenAt db id = tokenAt db' id := h (.token id) (by simp [Write.rights])
      obtain ⟨r, hr, hrest⟩ := hok
      exact ⟨r, hrow ▸ hr, hrest⟩
  | revoke id reason at' =>
    have hrow : tokenAt db id = tokenAt db' id := h (.token id) (by simp [Write.rights])
    obtain ⟨r, hr, hrest⟩ := hok
    exact ⟨r, hrow ▸ hr, hrest⟩
  | insertToken row =>
    obtain ⟨hused, hrevoked, hnone, hhash, email, hemail, hopen⟩ := hok
    have hrow : tokenAt db row.id = tokenAt db' row.id := h (.token row.id) (by simp [Write.rights])
    have hhashes : Agree (.tokenHash row.tokenHash) db db' := h _ (by simp [Write.rights])
    have haddress : Agree (.address email) db db' := h _ (by simp [Write.rights, hemail])
    refine ⟨hused, hrevoked, hrow ▸ hnone, fun id r hr heq => ?_, email, hemail, hopen.of_agree haddress⟩
    obtain ⟨r₀, hr₀, heq₀⟩ := hhashes id r hr heq
    exact hhash id r₀ hr₀ heq₀
  | accept id account at' =>
    have hrow : tokenAt db id = tokenAt db' id := h (.token id) (by simp [Write.rights])
    have huser : Agree (.user account.email) db db' := h _ (by simp [Write.rights])
    obtain ⟨⟨r, hr, hrest⟩, hfree⟩ := hok
    exact ⟨⟨r, hrow ▸ hr, hrest⟩, huser hfree⟩
  | insertUser account =>
    have huser : Agree (.user account.email) db db' := h _ (by simp [Write.rights])
    exact huser hok
  | updateUser email role disabledAt => trivial
  | removeUser email => trivial

theorem localWrites : LocalWrites Write.apply Write.Ok Write.rights Agree where
  refl := Agree.refl
  trans := Agree.trans
  frame := agree_apply
  congr := Agree.apply
  ok_congr := Write.Ok.of_agree

/-! ## The history -/

/-- The event accepts or revokes the invitation. -/
def Event.closes (id : Text) : Event → Bool
  | .accepted id' _ _ | .revoked id' _ _ => decide (id' = id)
  | .issued _ | .created _ | .removed _ => false

def Closed (log : List Event) (id : Text) : Prop := ∃ e ∈ log, e.closes id = true

/-- Whether an account holds the address after the event. -/
def onHolder (email : Text) (held : Bool) : Event → Bool
  | .accepted _ account _ | .created account => decide (email = account.email) || held
  | .removed email' => !decide (email = email') && held
  | .issued _ | .revoked _ _ _ => held

def holds (log : List Event) (email : Text) : Bool := log.foldl (onHolder email) false

/-- What may come after the log. -/
def Event.Allowed (log : List Event) : Event → Prop
  | .issued row => row.isOpen = true ∧
    (∀ r, Event.issued r ∈ log → r.id ≠ row.id ∧ r.tokenHash ≠ row.tokenHash) ∧
    ∃ email, row.email = some email ∧ ∀ r, Event.issued r ∈ log → r.email = some email → Closed log r.id
  | .accepted id account at' => (∃ r, Event.issued r ∈ log ∧ r.id = id ∧ r.email = some account.email ∧
    r.role = some account.role ∧ at' < r.expiresAt) ∧ ¬Closed log id ∧ holds log account.email = false
  | .revoked id reason at' => (∃ r, Event.issued r ∈ log ∧ r.id = id ∧ reason.Permits at' r) ∧ ¬Closed log id
  | .created account => holds log account.email = false
  | .removed _ => True

/-- What the tables are, by the log. -/
structure Inv (db : Db) : Prop where
  issued : ∀ id r, tokenAt db id = some r → Event.issued (fresh r) ∈ db.log
  kept : ∀ r, Event.issued r ∈ db.log → ∃ x, tokenAt db r.id = some x ∧ fresh x = r
  closed : ∀ id r, tokenAt db id = some r → (r.isOpen = true ↔ ¬Closed db.log id)
  holders : ∀ email, emailHasAccount db email = holds db.log email
  lawful : Lawful Event.Allowed db.log

/-- What a write adds to the log. -/
def Write.event : Write → Option Event
  | .revoke id reason at' => some (.revoked id reason at')
  | .insertToken row => some (.issued (columns row))
  | .accept id account at' => some (.accepted id account at')
  | .insertUser account => some (.created account)
  | .removeUser email => some (.removed email)
  | .rely _ | .updateUser _ _ _ => none

theorem log_apply (w : Write) (db : Db) : (w.apply db).log = db.log ++ w.event.toList := by
  cases w with
  | rely found => exact (List.append_nil _).symm
  | updateUser email role disabledAt => exact (List.append_nil _).symm
  | _ => rfl

theorem closed_append {log events : List Event} {id : Text} :
    Closed (log ++ events) id ↔ Closed log id ∨ Closed events id := by
  constructor
  · rintro ⟨e, he, hcloses⟩
    rcases List.mem_append.mp he with hold | hnew
    · exact .inl ⟨e, hold, hcloses⟩
    · exact .inr ⟨e, hnew, hcloses⟩
  · rintro (⟨e, he, hcloses⟩ | ⟨e, he, hcloses⟩)
    · exact ⟨e, List.mem_append_left _ he, hcloses⟩
    · exact ⟨e, List.mem_append_right _ he, hcloses⟩

theorem closed_event {w : Write} {id : Text} :
    Closed w.event.toList id ↔ ∃ e, w.event = some e ∧ e.closes id = true := by
  unfold Closed
  simp only [Option.mem_toList]

theorem fresh_columns {row : TokenRow} (hused : row.usedAt = none) (hrevoked : row.revokedAt = none) :
    fresh (columns row) = columns row := by
  cases row
  subst hused hrevoked
  rfl

variable {db : Db}

theorem Inv.empty (htokens : db.tokens = Table.empty) (husers : db.users = Table.empty) (hlog : db.log = []) :
    Inv db where
  issued := by
    intro id r hr
    unfold tokenAt at hr
    rw [htokens] at hr
    cases hr
  kept := by
    intro r hr
    rw [hlog] at hr
    cases hr
  closed := by
    intro id r hr
    unfold tokenAt at hr
    rw [htokens] at hr
    cases hr
  holders := by
    intro email
    unfold emailHasAccount
    rw [husers, hlog]
    rfl
  lawful := by
    rw [hlog]
    exact lawful_nil

/-- What a write adds to the log is allowed where the write finds what it needs. -/
theorem Inv.allowed (h : Inv db) {w : Write} {e : Event} (hok : w.Ok db) (he : w.event = some e) :
    Event.Allowed db.log e := by
  cases w with
  | rely found => cases he
  | updateUser email role disabledAt => cases he
  | removeUser email =>
    cases he
    trivial
  | insertUser account =>
    cases he
    exact (h.holders account.email).symm.trans hok
  | revoke id reason at' =>
    cases he
    obtain ⟨r, hr, hopen, hpermits⟩ := hok
    have hid : r.id = id := id_of_tokenAt hr
    exact ⟨⟨fresh r, h.issued id r hr, hid, hpermits⟩, (h.closed id r hr).mp hopen⟩
  | accept id account at' =>
    cases he
    obtain ⟨⟨r, hr, hopen, hemail, hrole, hlive⟩, hfree⟩ := hok
    have hid : r.id = id := id_of_tokenAt hr
    refine ⟨⟨fresh r, h.issued id r hr, hid, hemail, hrole, hlive⟩, (h.closed id r hr).mp hopen, ?_⟩
    exact (h.holders account.email).symm.trans hfree
  | insertToken row =>
    cases he
    obtain ⟨hused, hrevoked, hnone, hhash, email, hemail, hclear⟩ := hok
    refine ⟨?_, fun r hr => ?_, email, hemail, fun r hr hsame => ?_⟩
    · simp [TokenRow.isOpen, columns, hused, hrevoked]
    · obtain ⟨x, hx, rfl⟩ := h.kept r hr
      refine ⟨fun hid => ?_, hhash _ x hx⟩
      have hid : (fresh x).id = row.id := hid
      rw [hid, hnone] at hx
      cases hx
    · obtain ⟨x, hx, rfl⟩ := h.kept r hr
      by_contra hopen
      exact hclear _ x hx ((h.closed _ x hx).mpr hopen) hsame

/-- What is open after a write is what the write's event leaves open. -/
theorem isOpen_apply {w : Write} {id : Text} {r r' : TokenRow} (hr : tokenAt db id = some r)
    (hr' : tokenAt (w.apply db) id = some r') (hnew : ∀ row, w = .insertToken row → id ≠ row.id) :
    r'.isOpen = true ↔ r.isOpen = true ∧ ¬Closed w.event.toList id := by
  rw [tokenAt_apply, hr] at hr'
  rw [closed_event]
  unfold Write.onToken at hr'
  cases w with
  | revoke id' reason at' =>
    dsimp only at hr'
    split_ifs at hr' with heq
    · cases hr'
      subst heq
      simp [TokenRow.isOpen, Write.event, Event.closes]
    · cases hr'
      simp [Write.event, Event.closes, Ne.symm heq]
  | accept id' account at' =>
    dsimp only at hr'
    split_ifs at hr' with heq
    · cases hr'
      subst heq
      simp [TokenRow.isOpen, Write.event, Event.closes]
    · cases hr'
      simp [Write.event, Event.closes, Ne.symm heq]
  | insertToken row =>
    dsimp only at hr'
    rw [if_neg (hnew row rfl)] at hr'
    cases hr'
    simp [Write.event, Event.closes]
  | rely found =>
    cases hr'
    simp [Write.event]
  | insertUser account =>
    cases hr'
    simp [Write.event, Event.closes]
  | updateUser email role disabledAt =>
    cases hr'
    simp [Write.event]
  | removeUser email =>
    cases hr'
    simp [Write.event, Event.closes]

/-- An invitation that was not issued was not closed. -/
theorem Inv.not_closed (h : Inv db) {id : Text} (hnone : tokenAt db id = none) : ¬Closed db.log id := by
  rintro ⟨e, he, hcloses⟩
  obtain ⟨earlier, later, hlog⟩ := List.append_of_mem he
  have hallowed := h.lawful earlier e later hlog
  have hissued : ∀ r, Event.issued r ∈ earlier → r.id ≠ id := by
    intro r hr hid
    have hmem : Event.issued r ∈ db.log := by
      rw [hlog]
      exact List.mem_append_left _ hr
    obtain ⟨x, hx, -⟩ := h.kept r hmem
    rw [hid, hnone] at hx
    cases hx
  cases e with
  | accepted id' account at' =>
    obtain ⟨⟨r, hr, hid, -⟩, -⟩ := hallowed
    exact hissued r hr (hid.trans (of_decide_eq_true hcloses))
  | revoked id' reason at' =>
    obtain ⟨⟨r, hr, hid, -⟩, -⟩ := hallowed
    exact hissued r hr (hid.trans (of_decide_eq_true hcloses))
  | issued row => cases hcloses
  | created account => cases hcloses
  | removed email => cases hcloses

theorem Inv.apply (w : Write) (db : Db) (h : Inv db) (hok : w.Ok db) : Inv (w.apply db) where
  issued := by
    intro id r hr
    rw [log_apply]
    rcases fresh_apply hr with ⟨r₀, hr₀, hsame⟩ | ⟨row, rfl, -, rfl⟩
    · rw [← hsame]
      exact List.mem_append_left _ (h.issued id r₀ hr₀)
    · rw [fresh_columns hok.1 hok.2.1]
      exact List.mem_append_right _ (List.mem_singleton_self _)
  kept := by
    intro r hr
    rw [log_apply] at hr
    rcases List.mem_append.mp hr with hold | hnew
    · obtain ⟨x, hx, hsame⟩ := h.kept r hold
      have hother : ∀ row, w = .insertToken row → r.id ≠ row.id := by
        rintro row rfl hid
        rw [hid, hok.2.2.1] at hx
        cases hx
      obtain ⟨x', hx', hsame'⟩ := kept_apply hx hother
      exact ⟨x', hx', hsame'.trans hsame⟩
    · cases w with
      | insertToken row =>
        cases List.mem_singleton.mp hnew
        refine ⟨columns row, ?_, fresh_columns hok.1 hok.2.1⟩
        rw [tokenAt_apply]
        exact if_pos rfl
      | rely found => cases hnew
      | updateUser email role disabledAt => cases hnew
      | revoke id reason at' => cases List.mem_singleton.mp hnew
      | accept id account at' => cases List.mem_singleton.mp hnew
      | insertUser account => cases List.mem_singleton.mp hnew
      | removeUser email => cases List.mem_singleton.mp hnew
  closed := by
    intro id r hr
    rw [log_apply, closed_append]
    by_cases hinserts : ∃ row, w = .insertToken row ∧ id = row.id
    · obtain ⟨row, rfl, rfl⟩ := hinserts
      obtain ⟨hused, hrevoked, hnone, -⟩ := hok
      rw [tokenAt_apply] at hr
      obtain rfl : columns row = r := Option.some.inj ((if_pos rfl).symm.trans hr)
      have hbefore := h.not_closed hnone
      have hevent : ¬Closed (Write.insertToken row).event.toList row.id := by
        rw [closed_event]
        rintro ⟨e, he, hcloses⟩
        cases he
        cases hcloses
      simp [TokenRow.isOpen, columns, hused, hrevoked, hbefore, hevent]
    · rcases fresh_apply hr with ⟨r₀, hr₀, -⟩ | ⟨row, hw, hid, -⟩
      · rw [isOpen_apply hr₀ hr fun row hw hid => hinserts ⟨row, hw, hid⟩, h.closed id r₀ hr₀, not_or]
      · exact absurd ⟨row, hw, hid⟩ hinserts
  holders := by
    intro email
    rw [emailHasAccount_apply, log_apply, h.holders]
    unfold holds
    rw [List.foldl_append]
    cases w <;> rfl
  lawful := by
    rw [log_apply]
    cases he : w.event with
    | none =>
      rw [Option.toList_none, List.append_nil]
      exact h.lawful
    | some e => exact h.lawful.concat (h.allowed hok he)

/-! ## Revoking several -/

theorem tokenAt_revokeAll (ids : List Text) (reason : Reason) (at' : Time) (db : Db) (id : Text) :
    tokenAt (applyAll Write.apply (revokeAll ids reason at') db) id =
      if id ∈ ids then (tokenAt db id).map fun r => { r with revokedAt := some at' } else tokenAt db id := by
  induction ids generalizing db with
  | nil => rfl
  | cons i ids ih =>
    show tokenAt (applyAll Write.apply (revokeAll ids reason at') ((Write.revoke i reason at').apply db)) id = _
    rw [ih, tokenAt_apply]
    unfold Write.onToken
    dsimp only
    by_cases heq : id = i
    · cases tokenAt db id <;> simp [heq]
    · simp [heq]

theorem allOk_revokeAll {ids : List Text} {reason : Reason} {at' : Time} {db : Db} (hnodup : ids.Nodup)
    (h : ∀ id ∈ ids, (Write.revoke id reason at').Ok db) :
    AllOk Write.apply Write.Ok (revokeAll ids reason at') db := by
  induction ids generalizing db with
  | nil => trivial
  | cons i ids ih =>
    obtain ⟨hout, hnodup⟩ := List.nodup_cons.mp hnodup
    refine ⟨h i List.mem_cons_self, ih hnodup fun id hid => ?_⟩
    obtain ⟨r, hr, hrest⟩ := h id (List.mem_cons_of_mem _ hid)
    refine ⟨r, ?_, hrest⟩
    rw [tokenAt_apply]
    refine (if_neg fun heq => ?_).trans hr
    exact hout (heq ▸ hid)

theorem tokenAt_of_mem {r : TokenRow} (hr : r ∈ db.tokens.rows) : tokenAt db r.id = some (columns r) := by
  unfold tokenAt
  rw [Table.find?_of_mem hr]
  rfl

theorem mem_of_tokenAt {id : Text} {r : TokenRow} (hr : tokenAt db id = some r) :
    ∃ x ∈ db.tokens.rows, columns x = r := by
  obtain ⟨x, hx, hcolumns⟩ := Option.map_eq_some_iff.mp hr
  exact ⟨x, Table.mem_of_find? hx, hcolumns⟩

theorem nodup_openIds (select : TokenRow → Bool) : (openIds db select).Nodup :=
  (List.filter_sublist.map _).nodup db.tokens.unique

theorem mem_openIds {select : TokenRow → Bool} {id : Text} (h : id ∈ openIds db select) :
    ∃ r ∈ db.tokens.rows, r.id = id ∧ r.isOpen = true ∧ select r = true := by
  obtain ⟨r, hr, hid⟩ := List.mem_map.mp h
  obtain ⟨hmem, hselected⟩ := List.mem_filter.mp hr
  rw [Bool.and_eq_true] at hselected
  exact ⟨r, hmem, hid, hselected⟩

/-- The `UPDATE` of an address's open invitations leaves none open. -/
theorem noneOpen_revokeAll (email : Text) (reason : Reason) (at' : Time) :
    EachOpen (applyAll Write.apply (revokeAll (openIds db (·.email == some email)) reason at') db) email
      fun _ => False := by
  intro id r hr hopen hemail
  rw [tokenAt_revokeAll] at hr
  split_ifs at hr with hlisted
  · obtain ⟨x, -, rfl⟩ := Option.map_eq_some_iff.mp hr
    simp [TokenRow.isOpen] at hopen
  · obtain ⟨x, hx, rfl⟩ := mem_of_tokenAt hr
    have hid : (columns x).id = id := id_of_tokenAt hr
    refine hlisted (List.mem_map.mpr ⟨x, List.mem_filter.mpr ⟨hx, ?_⟩, hid⟩)
    rw [Bool.and_eq_true]
    exact ⟨hopen, beq_iff_eq.mpr hemail⟩

/-! ## What one statement keeps -/

/-- The draft holds the lock of the address. -/
def HoldsAddress (p : InviteDraft) (email : Text) : Prop := (RowKey.address email, Mode.update) ∈ p.held

/-- What a draft has done by the point it stands at. -/
def Shaped (p : InviteDraft) : Prop :=
  match p.point with
  | .locked rep _ | .pending rep _ | .unheld rep _ => HoldsAddress p rep.email ∧ p.written = []
  | .replaceable rep startedAt => HoldsAddress p rep.email ∧
    p.written = [.rely (.replaceable rep.email rep.actorRole startedAt)]
  | .cleared rep _ => HoldsAddress p rep.email ∧ ∃ ws, p.written = ws ++ [.rely (.noneOpen rep.email)]
  | .spent _ id email role startedAt => (RowKey.token id, Mode.noKeyUpdate) ∈ p.held ∧
    ∃ ws, p.written = ws ++ [.rely (.spendable id email role startedAt)]
  | .replacing _ _ | .revoking _ _ _ _ => p.written = []
  | .finishing answer => answer.changes = true
  | _ => True

/-- What `revokeInvitation` has read of its invitation. -/
def Known : Point → Db → Prop
  | .revoking id actorRole role _, db =>
    ∃ r, tokenAt db id = some r ∧ r.role = some role ∧ canGrantRole actorRole role = true
  | _, _ => True

/-- No write changes the role of an invitation. -/
theorem Known.apply (point : Point) (w : Write) (db : Db) (h : Known point db) (hok : w.Ok db) :
    Known point (w.apply db) := by
  cases point with
  | revoking id actorRole role startedAt =>
    obtain ⟨r, hr, hrole, hgrant⟩ := h
    have hother : ∀ row, w = .insertToken row → id ≠ row.id := by
      rintro row rfl hid
      rw [hid, hok.2.2.1] at hr
      cases hr
    obtain ⟨r', hr', hsame⟩ := kept_apply hr hother
    exact ⟨r', hr', (congrArg TokenRow.role hsame).trans hrole, hgrant⟩
  | _ => trivial

/-- Every write lasts, every draft is in shape, and what is read of a role stays true. -/
structure Good (s : State) : Prop where
  sound : Sound Write.apply Write.Ok Write.rights Inv s
  shaped : s.Each Shaped
  known : s.Facts fun p db => Known p.point db

variable {s : State} {t : ℕ} {p : InviteDraft}

theorem Good.ends (h : Good s) (t : ℕ) (answer : Answer) : Good (s.leave t (.ended answer)) :=
  ⟨h.sound.leave, h.shaped.put trivial, h.known.put trivial⟩

theorem Good.go (h : Good s) (hp : s.phase? t = some p) {point : Point}
    (hshape : Shaped { p with point := point }) (hknown : Known point s.db) : Good (s.go t p point) :=
  ⟨h.sound.go hp, h.shaped.put hshape, h.known.put hknown⟩

theorem Good.writes (h : Good s) (hp : s.phase? t = some p) {point : Point} {locks : List (RowKey × Mode)}
    {ws : List Write} (hcov : ∀ w ∈ ws, ∀ k ∈ w.rights, ∃ m, (k, m) ∈ p.held ++ locks ∧ m.changes = true)
    (hok : AllOk Write.apply Write.Ok ws (p.view Write.apply s.db))
    (hshape : Shaped ⟨point, p.held ++ locks, p.written ++ ws⟩) (hknown : Known point s.db) :
    Good (s.write t p point locks ws) :=
  ⟨h.sound.write hp hcov hok, h.shaped.enter hshape, h.known.enter fun _ => hknown⟩

theorem Good.write (h : Good s) (hp : s.phase? t = some p) {point : Point} {locks : List (RowKey × Mode)}
    {w : Write} (hcov : ∀ k ∈ w.rights, ∃ m, (k, m) ∈ p.held ++ locks ∧ m.changes = true)
    (hok : w.Ok (p.view Write.apply s.db))
    (hshape : Shaped ⟨point, p.held ++ locks, p.written ++ [w]⟩) (hknown : Known point s.db) :
    Good (s.write t p point locks [w]) := by
  refine h.writes hp (fun v hv => ?_) ⟨hok, trivial⟩ hshape hknown
  rw [List.mem_singleton.mp hv]
  exact hcov

theorem Good.finish (h : Good s) (hp : s.phase? t = some p) (answer : Answer) :
    Good (s.finish Write.apply t p (.ended answer)) where
  sound := h.sound.finish localWrites Inv.apply hp
  shaped := h.shaped.commit trivial
  known := h.sound.known_finish hp h.known Known.apply fun _ => trivial

/-- An `UPDATE` that revokes what is open, and what it then finds. -/
theorem Good.revokeWhere (h : Good s) (hp : s.phase? t = some p) {point : Point} {select : TokenRow → Bool}
    {reason : Reason} {at' : Time} {found : List Reliance}
    (hpermits : ∀ r ∈ (p.view Write.apply s.db).tokens.rows, r.isOpen = true → select r = true →
      reason.Permits at' r)
    (hcov : ∀ f ∈ found, ∀ k ∈ (Write.rely f).rights, ∃ m, (k, m) ∈ p.held ∧ m.changes = true)
    (hfound : AllOk Write.apply Write.Ok (found.map .rely)
      (applyAll Write.apply (revokeAll (openIds (p.view Write.apply s.db) select) reason at')
        (p.view Write.apply s.db)))
    (hshape : ∀ locks ws, Shaped ⟨point, p.held ++ locks, p.written ++ (ws ++ found.map .rely)⟩)
    (hknown : Known point s.db) : Good (revokeWhere s t p point select reason at' found) := by
  unfold Invite.revokeWhere
  refine h.writes hp (fun w hw k hk => ?_) (allOk_append.mpr ⟨allOk_revokeAll (nodup_openIds _) fun id hid => ?_,
    hfound⟩) (hshape _ _) hknown
  · rcases List.mem_append.mp hw with hw | hw
    · obtain ⟨id, hid, rfl⟩ := List.mem_map.mp hw
      rw [List.mem_singleton.mp hk]
      exact ⟨.noKeyUpdate, List.mem_append_right _ (List.mem_map_of_mem hid), rfl⟩
    · obtain ⟨f, hf, rfl⟩ := List.mem_map.mp hw
      obtain ⟨m, hm, hc⟩ := hcov f hf k hk
      exact ⟨m, List.mem_append_left _ hm, hc⟩
  · obtain ⟨r, hr, rfl, hopen, hselect⟩ := mem_openIds hid
    exact ⟨columns r, tokenAt_of_mem hr, hopen, hpermits r hr hopen hselect⟩

/-- A revocation without an actor. -/
theorem permits_of_none {reason : Reason} (h : reason.actorRole = none) (at' : Time) (r : TokenRow) :
    reason.Permits at' r := by
  intro actorRole hactor
  rw [h] at hactor
  cases hactor

/-- What the last of the writes has found still holds of what the draft sees. -/
theorem Good.lastFound (h : Good s) (hp : s.phase? t = some p) {ws : List Write} {found : Reliance}
    (hwritten : p.written = ws ++ [.rely found]) : (Write.rely found).Ok (p.view Write.apply s.db) := by
  have hall : AllOk Write.apply Write.Ok p.written s.db := h.sound.lasting t p hp
  unfold Draft.view
  rw [hwritten] at hall ⊢
  rw [applyAll_append]
  exact (allOk_append.mp hall).2.1

theorem view_of_nil (hwritten : p.written = []) : p.view Write.apply s.db = s.db := by
  unfold Draft.view
  rw [hwritten]
  rfl

/-- The open invitations of the address that are live have roles that the actor may grant. -/
theorem permits_of_not_higher {email : Text} {actorRole : UserRole} {now : Time}
    (h : hasHigherPendingInvite db now email actorRole = false) :
    EachOpen db email ((Reason.replaced actorRole).Permits now) := by
  intro id r hr hopen hemail actorRole' hactor hlive
  cases hactor
  obtain ⟨x, hx, rfl⟩ := mem_of_tokenAt hr
  by_contra hno
  push Not at hno
  refine absurd h ?_
  rw [Bool.not_eq_false]
  unfold hasHigherPendingInvite
  refine List.any_eq_true.mpr ⟨x, hx, ?_⟩
  have hopen : x.isOpen = true := hopen
  have hemail : x.email = some email := hemail
  have hlive : now < x.expiresAt := hlive
  simp only [liveInvite, hopen, hlive, hemail, decide_true, Bool.and_self, beq_self_eq_true, Bool.true_and]
  rw [Option.all_eq_true]
  intro role hrole
  rw [Bool.not_eq_true']
  exact Bool.not_eq_true _ ▸ hno role hrole

theorem Good.insertInvite (h : Good s) (hp : s.phase? t = some p) {rep : Replacement} {startedAt : Time}
    (hheld : HoldsAddress p rep.email)
    (hnone : EachOpen (p.view Write.apply s.db) rep.email fun _ => False) :
    Good (insertInvite s t p rep startedAt) := by
  unfold Invite.insertInvite
  dsimp only
  split
  · exact h.ends t _
  next actor _ =>
  split_ifs with hviolates
  · exact h.ends t _
  · rw [Bool.not_eq_true, violatesToken, Bool.or_eq_false_iff] at hviolates
    obtain ⟨hid, hhash⟩ := hviolates
    refine h.write hp (fun k hk => ?_) ⟨rfl, rfl, ?_, fun id r hr hsame => ?_, rep.email, rfl, hnone⟩ rfl trivial
    · rcases List.mem_cons.mp hk with rfl | hk
      · exact ⟨.update, List.mem_append_right _ (by simp [Replacement.token]), rfl⟩
      rcases List.mem_cons.mp hk with rfl | hk
      · exact ⟨.update, List.mem_append_right _ (by simp [Replacement.token]), rfl⟩
      · rw [List.mem_singleton.mp hk]
        exact ⟨.update, List.mem_append_left _ hheld, rfl⟩
    · rw [List.contains_eq_mem, decide_eq_false_iff_not] at hid
      unfold tokenAt
      rw [Table.find?_eq_none_iff.mpr hid]
      rfl
    · obtain ⟨x, hx, rfl⟩ := mem_of_tokenAt hr
      have hused : (x.tokenHash == (rep.token startedAt).tokenHash) = true := beq_iff_eq.mpr hsame
      exact Bool.false_ne_true (hhash.symm.trans (List.any_eq_true.mpr ⟨x, hx, hused⟩))

theorem Good.spend (h : Good s) (hp : s.phase? t = some p) (call : Acceptance) (startedAt : Time) :
    Good (spend s t p call startedAt) := by
  unfold Invite.spend
  dsimp only
  split
  · exact h.ends t _
  next r hfind =>
  have hmem := List.mem_of_find?_eq_some hfind
  have hfound := List.find?_some hfind
  simp only [acceptableInvite, liveInvite, Bool.and_eq_true, decide_eq_true_eq] at hfound
  obtain ⟨-, ⟨hopen, hlive⟩, -⟩ := hfound
  split
  next email role hemail hrole =>
    split_ifs
    · refine h.write hp (fun k hk => ?_) ⟨columns r, tokenAt_of_mem hmem, hopen, hemail, hrole, hlive⟩
        ⟨?_, p.written, rfl⟩ trivial
      · rw [List.mem_singleton.mp hk]
        exact ⟨.noKeyUpdate, List.mem_append_right _ (List.mem_singleton_self _), rfl⟩
      · exact List.mem_append_right _ (List.mem_singleton_self _)
    · exact h.ends t _
  next => exact h.ends t _

theorem Good.next (h : Good s) (hp : s.phase? t = some p) : Good (nextStatement s t p) := by
  have hshape := h.shaped t p hp
  have hknown : Known p.point s.db := h.known t p hp
  obtain ⟨point, held, written⟩ := p
  unfold nextStatement
  cases point with
  | replacing rep startedAt =>
    refine h.writes hp (by simp) trivial ⟨?_, ?_⟩ trivial
    · exact List.mem_append_right _ (List.mem_singleton_self _)
    · exact (List.append_nil _).trans hshape
  | locked rep startedAt =>
    dsimp only
    split_ifs
    · exact h.go hp hshape trivial
    · exact h.ends t _
  | pending rep startedAt =>
    dsimp only
    split_ifs
    · exact h.go hp trivial trivial
    · exact h.go hp hshape trivial
  | unheld rep startedAt =>
    dsimp only
    split_ifs with hhigher
    · exact h.ends t _
    · obtain ⟨hheld, hwritten⟩ := hshape
      refine h.write hp (fun k hk => ?_) (permits_of_not_higher (Bool.not_eq_true _ ▸ hhigher)) ⟨?_, ?_⟩ trivial
      · rw [List.mem_singleton.mp hk]
        exact ⟨.update, List.mem_append_left _ hheld, rfl⟩
      · exact List.mem_append_left _ hheld
      · rw [show written = [] from hwritten]
        rfl
  | replaceable rep startedAt =>
    obtain ⟨hheld, hwritten⟩ := hshape
    have hlast : written = [] ++ [.rely (.replaceable rep.email rep.actorRole startedAt)] := hwritten
    have hfound := h.lastFound hp hlast
    refine h.revokeWhere hp (fun r hr hopen hselect => ?_) (fun f hf k hk => ?_) ⟨?_, trivial⟩
      (fun locks ws => ⟨List.mem_append_left _ hheld, ?_⟩) trivial
    · exact hfound r.id (columns r) (tokenAt_of_mem hr) hopen (beq_iff_eq.mp hselect)
    · rw [List.mem_singleton.mp hf] at hk
      rw [List.mem_singleton.mp hk]
      exact ⟨.update, hheld, rfl⟩
    · exact noneOpen_revokeAll rep.email _ _
    · exact ⟨written ++ ws, (List.append_assoc ..).symm⟩
  | cleared rep startedAt =>
    obtain ⟨hheld, ws, hwritten⟩ := hshape
    exact h.insertInvite hp hheld (h.lastFound hp hwritten)
  | taken email startedAt =>
    exact h.revokeWhere hp (fun r _ _ _ => permits_of_none rfl _ r) (by simp) trivial (fun _ _ => rfl) trivial
  | revoking id actorRole role began =>
    cases began with
    | none => exact h.go hp hshape hknown
    | some startedAt =>
      dsimp only
      split_ifs with hopen
      · have hview := view_of_nil (s := s) (p := ⟨.revoking id actorRole role (some startedAt), held, written⟩) hshape
        rw [hview] at hopen
        obtain ⟨x, hx, hopen⟩ := (Option.any_eq_true _ _).mp hopen
        obtain ⟨r, hr, hrole, hgrant⟩ := hknown
        refine h.write hp (fun k hk => ?_) ⟨r, by rw [hview]; exact hr, ?_, ?_⟩ rfl trivial
        · rw [List.mem_singleton.mp hk]
          exact ⟨.noKeyUpdate, List.mem_append_right _ (List.mem_singleton_self _), rfl⟩
        · unfold tokenAt at hr
          rw [hx] at hr
          cases hr
          exact hopen
        · intro actorRole' hactor _
          cases hactor
          exact ⟨role, hrole, hgrant⟩
      · exact h.ends t _
  | hashing call email => exact h.go hp trivial trivial
  | accepting call email startedAt => exact h.writes hp (by simp) trivial trivial trivial
  | acceptLocked call email startedAt =>
    dsimp only
    split_ifs
    · exact h.go hp trivial trivial
    · exact h.go hp trivial trivial
  | acceptUnheld call startedAt => exact h.spend hp call startedAt
  | spent call id email role startedAt =>
    dsimp only
    split_ifs with hviolates
    · exact h.ends t _
    · obtain ⟨hheld, ws, hwritten⟩ := hshape
      rw [Bool.not_eq_true, violatesUser, Bool.or_eq_false_iff] at hviolates
      refine h.write hp (fun k hk => ?_) ⟨h.lastFound hp hwritten, hviolates.1⟩ trivial trivial
      rcases List.mem_cons.mp hk with rfl | hk
      · exact ⟨.noKeyUpdate, List.mem_append_left _ hheld, rfl⟩
      · rw [List.mem_singleton.mp hk]
        exact ⟨.update, List.mem_append_right _ (List.mem_singleton_self _), rfl⟩
  | entered email startedAt =>
    exact h.revokeWhere hp (fun r _ _ _ => permits_of_none rfl _ r) (by simp) trivial (fun _ _ => rfl) trivial
  | acting account change granting startedAt =>
    cases change with
    | remove => exact h.go hp trivial trivial
    | update changes =>
      refine h.writes hp (fun w hw k hk => ?_) (allOk_of_forall fun w hw db => ?_) trivial trivial
      · obtain ⟨⟨email, role, disabledAt⟩, hmem, rfl⟩ := List.mem_map.mp hw
        rw [List.mem_singleton.mp hk]
        exact ⟨.noKeyUpdate, List.mem_append_right _ (List.mem_map.mpr ⟨_, hmem, rfl⟩), rfl⟩
      · obtain ⟨_, -, rfl⟩ := List.mem_map.mp hw
        trivial
  | updated account change granting startedAt =>
    exact h.revokeWhere hp (fun r _ _ _ => permits_of_none rfl _ r) (by simp) trivial (fun _ _ => trivial) trivial
  | disowned account change =>
    cases change with
    | update changes => exact h.go hp rfl trivial
    | remove =>
      refine h.write hp (fun k hk => ?_) trivial rfl trivial
      rw [List.mem_singleton.mp hk]
      exact ⟨.update, List.mem_append_right _ List.mem_cons_self, rfl⟩
  | finishing answer => exact h.finish hp answer
  | ended answer => exact h

/-! ## Every run -/

theorem Good.waits (h : Good s) {point : Point} (hshape : Shaped ⟨point, [], []⟩)
    (hknown : Known point s.db) : Good (s.leave t point) :=
  ⟨h.sound.leave, h.shaped.put hshape, h.known.put hknown⟩

/-- What `findPendingById` finds is there, with its role. -/
theorem tokenAt_of_findPendingById {now : Time} {id email : Text} {role : UserRole}
    (h : findPendingById db now id = some (email, role)) : ∃ r, tokenAt db id = some r ∧ r.role = some role := by
  obtain ⟨r, hr, hrest⟩ := Option.bind_eq_some_iff.mp h
  obtain ⟨hfind, -⟩ := Option.filter_eq_some_iff.mp hr
  obtain ⟨email', -, hrole⟩ := Option.bind_eq_some_iff.mp hrest
  obtain ⟨role', hrole', heq⟩ := Option.map_eq_some_iff.mp hrole
  cases heq
  refine ⟨columns r, ?_, (Option.filter_eq_some_iff.mp hrole').1⟩
  unfold tokenAt
  rw [hfind]
  rfl

theorem Good.start (h : Good s) (t : ℕ) (call : Call) : Good (start s t call) := by
  unfold Invite.start
  cases call with
  | createInvitation rep invitable =>
    dsimp only
    split_ifs
    · exact h.ends t _
    · exact h.ends t _
    · exact h.waits rfl trivial
  | resendInvitation rep id =>
    dsimp only
    split
    · exact h.ends t _
    · split_ifs
      · exact h.waits rfl trivial
      · exact h.ends t _
  | revokeInvitation actorRole id =>
    dsimp only
    split
    · exact h.ends t _
    next email role hfind =>
      split_ifs with hgrant
      · obtain ⟨r, hr, hrole⟩ := tokenAt_of_findPendingById hfind
        exact h.waits rfl ⟨r, hr, hrole, hgrant⟩
      · exact h.ends t _
  | acceptInvitation call =>
    dsimp only
    split
    · exact h.ends t _
    · split
      · exact h.waits trivial trivial
      · exact h.ends t _
  | createAccount account =>
    dsimp only
    split_ifs with hviolates
    · exact h.ends t _
    · rw [Bool.not_eq_true, violatesUser, Bool.or_eq_false_iff] at hviolates
      refine ⟨h.sound.begin (fun w hw k hk => ?_) ⟨hviolates.1, trivial⟩, h.shaped.enter rfl,
        h.known.enter fun _ => trivial⟩
      rw [List.mem_singleton.mp hw] at hk
      rw [List.mem_singleton.mp hk]
      exact ⟨.update, List.mem_singleton_self _, rfl⟩
  | accountAction email change granting =>
    dsimp only
    split
    · exact h.ends t _
    · exact h.waits trivial trivial

theorem Good.step (h : Good s) (a : Action) : Good (step s a) := by
  unfold Invite.step
  cases a with
  | start t call =>
    dsimp only
    split_ifs
    · exact h
    · exact h.start t call
  | next t =>
    dsimp only
    cases hp : s.phase? t with
    | none => exact h
    | some p => exact h.next hp
  | fail t =>
    dsimp only
    split_ifs
    · exact h.ends t _
    · exact h
  | tick ms =>
    have hinv : Inv { s.db with now := s.db.now + ms } := ⟨h.sound.inv.1, h.sound.inv.2, h.sound.inv.3,
      h.sound.inv.4, h.sound.inv.5⟩
    refine ⟨h.sound.shift localWrites (fun k => ?_) hinv, h.shaped, fun u r hr => ?_⟩
    · cases k with
      | token id => exact Agree.refl (.token id) s.db
      | tokenHash hash => exact Agree.refl (.tokenHash hash) s.db
      | address email => exact Agree.refl (.address email) s.db
      | user email => exact Agree.refl (.user email) s.db
    · have hfact : Known r.point s.db := h.known u r hr
      show Known r.point _
      cases hpoint : r.point with
      | revoking id actorRole role startedAt =>
        rw [hpoint] at hfact
        exact hfact
      | _ => trivial

theorem good_run (now : Time) (actions : List Action) : Good (Run.run step (init now) actions) := by
  have hinit : Good (init now) := ⟨Sound.init (Inv.empty rfl rfl rfl), Store.each_init _ _, Store.facts_init _⟩
  exact Run.foldl_invariant Good (fun _ a h => h.step a) hinit actions

/-! ## What a refusal leaves -/

theorem db_insertInvite (rep : Replacement) (startedAt : Time) : (insertInvite s t p rep startedAt).db = s.db := by
  unfold insertInvite
  dsimp only
  split
  · rfl
  · split_ifs
    · rfl
    · exact Store.db_write ..

theorem db_spend (call : Acceptance) (startedAt : Time) : (spend s t p call startedAt).db = s.db := by
  unfold spend
  dsimp only
  split
  · rfl
  · split
    · split_ifs
      · exact Store.db_write ..
      · rfl
    · rfl

/-- Only a commit changes what is committed. -/
theorem db_next (h : ∀ answer, p.point ≠ .finishing answer) : (nextStatement s t p).db = s.db := by
  obtain ⟨point, held, written⟩ := p
  unfold nextStatement
  cases point with
  | finishing answer => exact absurd rfl (h answer)
  | cleared rep startedAt => exact db_insertInvite rep startedAt
  | acceptUnheld call startedAt => exact db_spend call startedAt
  | replacing rep startedAt => exact Store.db_write ..
  | replaceable rep startedAt => exact Store.db_write ..
  | taken email startedAt => exact Store.db_write ..
  | accepting call email startedAt => exact Store.db_write ..
  | entered email startedAt => exact Store.db_write ..
  | updated account change granting startedAt => exact Store.db_write ..
  | locked rep startedAt => dsimp only; split_ifs <;> rfl
  | pending rep startedAt => dsimp only; split_ifs <;> rfl
  | acceptLocked call email startedAt => dsimp only; split_ifs <;> rfl
  | hashing call email => rfl
  | ended answer => rfl
  | unheld rep startedAt =>
    dsimp only
    split_ifs
    · rfl
    · exact Store.db_write ..
  | revoking id actorRole role began =>
    cases began with
    | none => rfl
    | some startedAt =>
      dsimp only
      split_ifs
      · exact Store.db_write ..
      · rfl
  | spent call id email role startedAt =>
    dsimp only
    split_ifs
    · rfl
    · exact Store.db_write ..
  | acting account change granting startedAt =>
    cases change with
    | update changes => exact Store.db_write ..
    | remove => rfl
  | disowned account change =>
    cases change with
    | update changes => rfl
    | remove => exact Store.db_write ..

/-- A call that ends without having changed anything, by its answer, has not. -/
def RefusalsKeep (s : State) : Prop :=
  ∀ t p answer, s.phase? t = some p → p.point.isEnded = false →
    ((step s (.next t)).phase? t).map (·.point) = some (.ended answer) → answer.changes = false →
    (step s (.next t)).db = s.db

theorem Good.refusalsKeep (h : Good s) : RefusalsKeep s := by
  intro t p answer hp hopen hend hanswer
  have hstep : Invite.step s (.next t) = nextStatement s t p := by
    unfold Invite.step
    dsimp only
    rw [hp]
    rfl
  rw [hstep] at hend ⊢
  refine db_next fun answer' hpoint => ?_
  have hshape := h.shaped t p hp
  unfold Shaped at hshape
  rw [hpoint] at hshape
  unfold nextStatement at hend
  dsimp only at hend
  rw [hpoint] at hend
  dsimp only at hend
  rw [Store.finish, Store.phase?_commit, if_pos rfl] at hend
  injection hend with hend
  injection hend with hend
  rw [← hend] at hanswer
  exact Bool.false_ne_true (hanswer.symm.trans hshape)

/-! ## The runs -/

/-- Two invitations of one address: the earlier is closed. -/
theorem Inv.one_open (h : Inv db) {r r' : TokenRow} (hr : Event.issued r ∈ db.log)
    (hr' : Event.issued r' ∈ db.log) (hemail : r.email = r'.email) (hopen : ¬Closed db.log r.id)
    (hopen' : ¬Closed db.log r'.id) : r = r' := by
  by_contra hne
  have hne : Event.issued r ≠ Event.issued r' := fun h => hne (by injection h)
  obtain ⟨earlier, later, ⟨hlog, hmem, hallowed⟩ | ⟨hlog, hmem, hallowed⟩⟩ := h.lawful.of_mem_of_mem hr hr' hne
  · obtain ⟨-, -, email, hsome, hclosed⟩ := hallowed
    refine hopen ?_
    rw [hlog]
    exact closed_append.mpr (.inl (hclosed r hmem (hemail.trans hsome)))
  · obtain ⟨-, -, email, hsome, hclosed⟩ := hallowed
    refine hopen' ?_
    rw [hlog]
    exact closed_append.mpr (.inl (hclosed r' hmem (hemail.symm.trans hsome)))

/-- The invitations and the accounts, against the log of what was committed. -/
structure SpentOnce (db : Db) : Prop where
  lawful : Lawful Event.Allowed db.log
  oneOpen : ∀ r ∈ db.tokens.rows, ∀ r' ∈ db.tokens.rows, r.isOpen = true → r'.isOpen = true →
    r.email = r'.email → r = r'
  issued : ∀ r ∈ db.tokens.rows, Event.issued (fresh (columns r)) ∈ db.log
  closed : ∀ r ∈ db.tokens.rows, r.isOpen = true ↔ ¬Closed db.log r.id
  holders : ∀ email, emailHasAccount db email = holds db.log email

theorem Inv.spentOnce (h : Inv db) : SpentOnce db where
  lawful := h.lawful
  oneOpen := by
    intro r hr r' hr' hopen hopen' hemail
    have hissued := h.issued _ _ (tokenAt_of_mem hr)
    have hissued' := h.issued _ _ (tokenAt_of_mem hr')
    have hsame := h.one_open hissued hissued' hemail ((h.closed _ _ (tokenAt_of_mem hr)).mp hopen)
      ((h.closed _ _ (tokenAt_of_mem hr')).mp hopen')
    have hid : (fresh (columns r)).id = (fresh (columns r')).id := congrArg TokenRow.id hsame
    exact Table.eq_of_key_eq hr hr' hid
  issued := fun r hr => h.issued _ _ (tokenAt_of_mem hr)
  closed := fun r hr => h.closed r.id (columns r) (tokenAt_of_mem hr)
  holders := h.holders

/-- **Invitations are spent once.**  In every run what is committed is a lawful history: an invitation is
issued when no other of its address is open; it is accepted once, before it expires, not after it was
revoked, for an account of its address and role where no account holds the address; and what an actor
replaces or revokes has, while it is live, a role that the actor may grant.  The tables are as that
history tells, and a call that is refused changes nothing. -/
theorem invitations_spent_once (now : Time) (actions : List Action) :
    SpentOnce (Run.run step (init now) actions).db ∧ RefusalsKeep (Run.run step (init now) actions) :=
  ⟨(good_run now actions).sound.inv.spentOnce, (good_run now actions).refusalsKeep⟩

/-! ## One run -/

/-- Eleven statements of a call. -/
def callRun (t : ℕ) (call : Call) : List Action := .start t call :: List.replicate 11 (.next t)

def plainInvitation (tokenId : Text) : Replacement where
  actorId := "o"
  actorRole := .owner
  email := "a@x"
  role := .member
  resends := none
  expiryDays := 7
  tokenId := tokenId
  tokenHash := tokenId

/-- The second invitation of an address revokes the first, and is accepted once. -/
example :
    let s := Run.run step (init 0) (callRun 0 (.createAccount ⟨"o", "o@x", .owner, none⟩) ++
      callRun 1 (.createInvitation (plainInvitation "i") true) ++
      callRun 2 (.createInvitation (plainInvitation "j") true) ++ callRun 3 (.acceptInvitation ⟨"i", "u"⟩) ++
      callRun 4 (.acceptInvitation ⟨"j", "v"⟩) ++ callRun 5 (.acceptInvitation ⟨"j", "w"⟩))
    s.db.log.drop 4 = [.accepted "j" ⟨"v", "a@x", .member, none⟩ 0] ∧
      (s.phase? 3).map (·.point) = some (.ended .invalid) ∧
      (s.phase? 5).map (·.point) = some (.ended .invalid) := by
  decide +kernel

end BunMail.Users.Invite
