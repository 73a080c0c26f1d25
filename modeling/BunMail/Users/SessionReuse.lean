import BunMail.Lib.Run
import BunMail.Users.SessionGuard

/-!
# Reused tokens are recognized

Whatever the interleaving, what is committed is a history in which each event is allowed after those
before it (`Event.Allowed`), and the tables are as that history tells: a row of `sessions` shows the
chain of its session, and `session_token_history` holds what the chains superseded.
-/

namespace BunMail.Users.Guard

open Transactions History

/-! ## What the writes read and change -/

/-- What a write makes of the row `id`. -/
def Write.onRow (id : Text) : Write → Option SessionRow → Option SessionRow
  | .insertSession input at', row => if id = input.id then some (input.row at') else row
  | .rotate _ id' _ hash at', row => if id = id' then row.map (·.rotated at' hash) else row
  | .elevate id' hash at', row => if id = id' then row.map (·.elevated at' hash) else row
  | .raise id', row => if id = id' then row.map fun r => { r with assurance := .mfa } else row
  | .delete id', row => if id = id' then none else row
  | .rely _, row => row

/-- What a write adds to the log. -/
def Write.event : Write → Option Event
  | .insertSession input at' => some (.opened input at')
  | .rotate t id presented hash at' => some (.rotated t id presented hash at')
  | .elevate id hash at' => some (.elevated id hash at')
  | .raise id => some (.raised id)
  | .delete id => some (.ended id)
  | .rely _ => none

section Writes

variable {db db' : Db} {w : Write} {id x : Text}

theorem log_apply (w : Write) (db : Db) : (w.apply db).log = db.log ++ w.event.toList := by
  cases w with
  | rely found => exact (List.append_nil _).symm
  | _ => rfl

theorem log_applyAll (ws : List Write) (db : Db) :
    (applyAll Write.apply ws db).log = db.log ++ ws.filterMap Write.event := by
  induction ws generalizing db with
  | nil => exact (List.append_nil _).symm
  | cons w ws ih =>
    rw [applyAll_cons, ih, log_apply, List.append_assoc]
    cases h : w.event <;> simp [h]

theorem find?_updateSession (db : Db) (id : Text) {f : SessionRow → SessionRow} (hf : ∀ r, (f r).id = r.id)
    (id' : Text) : (db.updateSession id f).find? id' =
      if id' = id then (db.sessions.find? id').map f else db.sessions.find? id' := by
  unfold Db.updateSession
  rw [Table.find?_updateAll]
  cases hfind : db.sessions.find? id' with
  | none => simp
  | some r =>
    have hkey : r.id = id' := Table.key_of_find? hfind
    unfold rewrite
    by_cases heq : id' = id
    · have hsame : ({ f r with id := r.id } : SessionRow) = f r := by rw [← hf r]
      rw [Option.map_some, Option.map_some, if_pos heq, if_pos (hkey.trans heq), hsame]
    · rw [Option.map_some, if_neg heq, if_neg fun h => heq (hkey.symm.trans h)]

theorem find?_apply (w : Write) (db : Db) (id : Text) :
    (w.apply db).sessions.find? id = w.onRow id (db.sessions.find? id) := by
  cases w with
  | rely found => rfl
  | insertSession input at' =>
    unfold Write.apply Write.onRow
    dsimp only
    split_ifs with heq
    · subst heq
      exact Table.find?_replace db.sessions (input.row at') _
    · exact Table.find?_upsert_ne _ heq
  | rotate t id' presented hash at' => exact find?_updateSession db id' (f := (·.rotated at' hash)) (fun _ => rfl) id
  | elevate id' hash at' => exact find?_updateSession db id' (f := (·.elevated at' hash)) (fun _ => rfl) id
  | raise id' =>
    exact find?_updateSession db id' (f := fun r => { r with assurance := .mfa }) (fun _ => rfl) id
  | delete id' =>
    unfold Write.apply Write.onRow
    dsimp only
    rw [Table.find?_deleteWhere]
    cases hfind : db.sessions.find? id with
    | none => split_ifs <;> rfl
    | some r =>
      have hkey : r.id = id := Table.key_of_find? hfind
      by_cases heq : id = id' <;> simp [Option.filter, hkey, heq]

theorem history_rotate (t : ℕ) (id presented hash : Text) (at' : Time) (db : Db) (x : Text) :
    ((Write.rotate t id presented hash at').apply db).history.find? x =
      if x = presented then some ⟨presented, id, at'⟩ else db.history.find? x := by
  unfold Write.apply
  dsimp only
  split_ifs with hsame
  · subst hsame
    exact Table.find?_replace db.history ⟨x, id, at'⟩ _
  · exact Table.find?_upsert_ne _ hsame

/-! ## What the writes need -/

/-- The session is one that the `UPDATE` of `rotateSession` finds, and due. -/
def Rotatable (db : Db) (id presented hash : Text) (at' : Time) : Prop :=
  hash ∉ tokens db.log ∧ ∃ r, db.sessions.find? id = some r ∧ r.tokenHash = presented ∧ r.assurance ≠ .pending ∧
    at' < r.expiresAt ∧ r.rotatedAt.getD r.createdAt + seconds SESSION_ROTATE_SECONDS < at'

/-- The session is pending. -/
def IsPending (db : Db) (id : Text) (at' : Time) : Prop :=
  ∃ r, db.sessions.find? id = some r ∧ r.assurance = .pending ∧ at' < r.expiresAt

/-- What a write needs. -/
def Write.Ok : Write → Db → Prop
  | .rely (.rotatable id presented hash at'), db | .rotate _ id presented hash at', db =>
    Rotatable db id presented hash at'
  | .rely (.pending id at'), db => IsPending db id at'
  | .elevate id hash at', db => hash ∉ tokens db.log ∧ IsPending db id at'
  | .insertSession input _, db => input.id ∉ opened db.log ∧ input.tokenHash ∉ tokens db.log
  | .raise id, db => ∃ r, db.sessions.find? id = some r ∧ r.assurance ≠ .pending
  | .delete id, db => ∃ r, db.sessions.find? id = some r

/-- As far as the holder of a row relies on it, `db'` is as `db`. -/
def Agree : RowKey → Db → Db → Prop
  | .session id, db, db' =>
    db.sessions.find? id = db'.sessions.find? id ∧ (id ∉ opened db.log → id ∉ opened db'.log)
  | .tokenHash hash, db, db' => hash ∉ tokens db.log → hash ∉ tokens db'.log

theorem mem_tokens_apply : x ∈ tokens (w.apply db).log ↔
    x ∈ tokens db.log ∨ ∃ e id', w.event = some e ∧ e.mints = some (id', x) := by
  rw [log_apply]
  cases he : w.event with
  | none => simp
  | some e =>
    rw [Option.toList_some, tokens_concat, List.mem_append]
    refine or_congr_right ?_
    cases hm : e.mints with
    | none => simp [hm]
    | some m => simp [hm, Prod.ext_iff, eq_comm]

theorem mem_opened_apply : id ∈ opened (w.apply db).log ↔
    id ∈ opened db.log ∨ ∃ e, w.event = some e ∧ e.opens = some id := by
  rw [log_apply]
  cases he : w.event with
  | none => simp
  | some e =>
    rw [Option.toList_some, opened_concat, List.mem_append, Option.mem_toList]
    simp

theorem Agree.refl (k : RowKey) (db : Db) : Agree k db db := by
  cases k with
  | session id => exact ⟨rfl, fun h => h⟩
  | tokenHash hash => exact fun h => h

theorem Agree.trans {k : RowKey} {a b c : Db} (hab : Agree k a b) (hbc : Agree k b c) : Agree k a c := by
  cases k with
  | session id => exact ⟨hab.1.trans hbc.1, fun h => hbc.2 (hab.2 h)⟩
  | tokenHash hash => exact fun h => hbc (hab h)

theorem agree_apply {k : RowKey} (db : Db) (hk : k ∉ w.rights) : Agree k db (w.apply db) := by
  cases k with
  | session id =>
    refine ⟨?_, fun hnone hmem => ?_⟩
    · rw [find?_apply]
      rcases w with ⟨_ | _⟩ | _ | _ | _ | _ | _ <;> simp_all [Write.rights, Write.onRow]
    · rcases mem_opened_apply.mp hmem with hold | ⟨e, he, hopens⟩
      · exact hnone hold
      · rcases w with ⟨_ | _⟩ | _ | _ | _ | _ | _ <;> simp_all [Write.rights, Write.event] <;>
          (subst he; simp_all [Event.opens])
  | tokenHash hash =>
    intro hnone hmem
    rcases mem_tokens_apply.mp hmem with hold | ⟨e, id', he, hmints⟩
    · exact hnone hold
    · rcases w with ⟨_ | _⟩ | _ | _ | _ | _ | _ <;> simp_all [Write.rights, Write.event] <;>
        (subst he; simp_all [Event.mints])

theorem Agree.apply {k : RowKey} (w : Write) (h : Agree k db db') : Agree k (w.apply db) (w.apply db') := by
  cases k with
  | session id =>
    refine ⟨by rw [find?_apply, find?_apply, h.1], fun hnone hmem => ?_⟩
    rw [mem_opened_apply, not_or] at hnone
    rcases mem_opened_apply.mp hmem with hold | hnew
    · exact h.2 hnone.1 hold
    · exact hnone.2 hnew
  | tokenHash hash =>
    intro hnone hmem
    rw [mem_tokens_apply, not_or] at hnone
    rcases mem_tokens_apply.mp hmem with hold | hnew
    · exact h hnone.1 hold
    · exact hnone.2 hnew

theorem Rotatable.of_agree {presented hash : Text} {at' : Time} (hrow : Agree (.session id) db db')
    (hhash : Agree (.tokenHash hash) db db') (h : Rotatable db id presented hash at') :
    Rotatable db' id presented hash at' := by
  obtain ⟨hnew, r, hr, hrest⟩ := h
  exact ⟨hhash hnew, r, hrow.1 ▸ hr, hrest⟩

theorem IsPending.of_agree {at' : Time} (hrow : Agree (.session id) db db') (h : IsPending db id at') :
    IsPending db' id at' := by
  obtain ⟨r, hr, hrest⟩ := h
  exact ⟨r, hrow.1 ▸ hr, hrest⟩

theorem Write.Ok.of_agree (h : ∀ k ∈ w.rights, Agree k db db') (hok : w.Ok db) : w.Ok db' := by
  cases w with
  | rely found =>
    cases found with
    | rotatable id presented hash at' =>
      exact Rotatable.of_agree (h _ (by simp [Write.rights])) (h _ (by simp [Write.rights])) hok
    | pending id at' => exact IsPending.of_agree (h _ (by simp [Write.rights])) hok
  | rotate t id presented hash at' =>
    exact Rotatable.of_agree (h _ (by simp [Write.rights])) (h _ (by simp [Write.rights])) hok
  | elevate id hash at' =>
    have hhash : Agree (.tokenHash hash) db db' := h _ (by simp [Write.rights])
    exact ⟨hhash hok.1, IsPending.of_agree (h _ (by simp [Write.rights])) hok.2⟩
  | insertSession input at' =>
    have hrow : Agree (.session input.id) db db' := h _ (by simp [Write.rights])
    have hhash : Agree (.tokenHash input.tokenHash) db db' := h _ (by simp [Write.rights])
    exact ⟨hrow.2 hok.1, hhash hok.2⟩
  | raise id =>
    have hrow : Agree (.session id) db db' := h _ (by simp [Write.rights])
    obtain ⟨r, hr, hlevel⟩ := hok
    exact ⟨r, hrow.1 ▸ hr, hlevel⟩
  | delete id =>
    have hrow : Agree (.session id) db db' := h _ (by simp [Write.rights])
    obtain ⟨r, hr⟩ := hok
    exact ⟨r, hrow.1 ▸ hr⟩

theorem localWrites : LocalWrites Write.apply Write.Ok Write.rights Agree where
  refl := Agree.refl
  trans := Agree.trans
  frame := agree_apply
  congr := Agree.apply
  ok_congr := Write.Ok.of_agree

end Writes

/-! ## The tables as the history tells -/

/-- The row of a session. -/
structure Chain.Shown (c : Chain) (r : SessionRow) : Prop where
  userId : r.userId = c.userId
  level : r.assurance = c.level
  current : r.tokenHash = c.current
  previous : r.previousTokenHash = c.superseded.head?.map Prod.fst
  since : ∀ x since, c.superseded.head? = some (x, since) → r.rotatedAt = some since
  activeAt : r.rotatedAt.getD r.createdAt = c.activeAt
  openedAt : r.createdAt = c.openedAt
  expiresAt : r.expiresAt = c.expiry

section Shown

variable {c : Chain} {r : SessionRow}

theorem shown_start (input : NewSession) (at' : Time) : (Chain.start input at').Shown (input.row at') where
  userId := rfl
  level := rfl
  current := rfl
  previous := rfl
  since := by
    intro x since h
    cases h
  activeAt := rfl
  openedAt := rfl
  expiresAt := by
    have hle : seconds SESSION_IDLE_SECONDS ≤ seconds SESSION_ABSOLUTE_SECONDS := by decide
    unfold NewSession.row Chain.start Chain.expiry
    dsimp only
    split_ifs
    · rfl
    · exact (min_eq_left (Nat.add_le_add_left hle at')).symm

theorem Chain.Shown.expiry (h : c.Shown r) (at' : Time) {c' : Chain} (hlevel : c'.level ≠ .pending)
    (hactive : c'.activeAt = at') (hopened : c'.openedAt = c.openedAt) : r.slidingExpiry at' = c'.expiry := by
  unfold SessionRow.slidingExpiry Chain.expiry
  rw [if_neg hlevel, hactive, hopened, h.openedAt]

theorem Chain.Shown.rotate (h : c.Shown r) (hlevel : c.level ≠ .pending) (hash : Text) (at' : Time) :
    (c.rotate hash at').Shown (r.rotated at' hash) where
  userId := h.userId
  level := h.level
  current := rfl
  previous := congrArg some h.current
  since := by
    intro x since heq
    cases heq
    rfl
  activeAt := rfl
  openedAt := h.openedAt
  expiresAt := h.expiry at' hlevel rfl rfl

theorem Chain.Shown.elevate (h : c.Shown r) (hnone : c.superseded = []) (hash : Text) (at' : Time) :
    (c.elevate hash at').Shown (r.elevated at' hash) where
  userId := h.userId
  level := rfl
  current := rfl
  previous := by
    show none = c.superseded.head?.map Prod.fst
    rw [hnone]
    rfl
  since := by
    intro x since heq
    have heq : c.superseded.head? = some (x, since) := heq
    rw [hnone] at heq
    cases heq
  activeAt := rfl
  openedAt := h.openedAt
  expiresAt := h.expiry at' (by simp [Chain.elevate]) rfl rfl

theorem Chain.Shown.raise (h : c.Shown r) (hlevel : c.level ≠ .pending) :
    c.raise.Shown { r with assurance := .mfa } where
  userId := h.userId
  level := rfl
  current := h.current
  previous := h.previous
  since := h.since
  activeAt := h.activeAt
  openedAt := h.openedAt
  expiresAt := by
    show r.expiresAt = _
    rw [h.expiresAt]
    unfold Chain.expiry Chain.raise
    rw [if_neg hlevel, if_neg (by simp)]

end Shown

/-- A session on file and its row. -/
inductive Tracks : Option Chain → Option SessionRow → Prop
  | gone : Tracks none none
  | shown {c : Chain} {r : SessionRow} (h : c.Shown r) : Tracks (some c) (some r)

theorem Tracks.of_row {chain : Option Chain} {r : SessionRow} (h : Tracks chain (some r)) :
    ∃ c, chain = some c ∧ c.Shown r := by
  cases h with
  | shown h => exact ⟨_, rfl, h⟩

theorem Tracks.of_chain {row : Option SessionRow} {c : Chain} (h : Tracks (some c) row) :
    ∃ r, row = some r ∧ c.Shown r := by
  cases h with
  | shown h => exact ⟨_, rfl, h⟩

theorem Tracks.of_none {row : Option SessionRow} (h : Tracks none row) : row = none := by
  cases h
  rfl

/-- What the tables are, by the log. -/
structure Inv (db : Db) : Prop where
  lawful : Lawful Event.Allowed db.log
  rows : ∀ id, Tracks (chainOf db.log id) (db.sessions.find? id)
  history : ∀ x h, db.history.find? x = some h →
    ∃ c since, chainOf db.log h.sessionId = some c ∧ (x, since) ∈ c.superseded
  recorded : ∀ id c x since, chainOf db.log id = some c → (x, since) ∈ c.superseded →
    ∃ h, db.history.find? x = some h ∧ h.sessionId = id

section Inv

variable {db : Db} {w : Write} {e : Event} {id : Text}

theorem Inv.chain_of_row (h : Inv db) {r : SessionRow} (hr : db.sessions.find? id = some r) :
    ∃ c, chainOf db.log id = some c ∧ c.Shown r := by
  have := h.rows id
  rw [hr] at this
  exact this.of_row

theorem Inv.row_of_chain (h : Inv db) {c : Chain} (hc : chainOf db.log id = some c) :
    ∃ r, db.sessions.find? id = some r ∧ c.Shown r := by
  have := h.rows id
  rw [hc] at this
  exact this.of_chain

/-- What a write adds to the log is allowed where the write finds what it needs. -/
theorem Inv.allowed (h : Inv db) (hok : w.Ok db) (he : w.event = some e) : e.Allowed db.log := by
  cases w with
  | rely found => cases he
  | insertSession input at' =>
    cases he
    exact hok
  | rotate t id presented hash at' =>
    cases he
    obtain ⟨hnew, r, hr, htoken, hlevel, hlt, hdue⟩ := hok
    obtain ⟨c, hc, hshown⟩ := h.chain_of_row hr
    refine ⟨hnew, c, hc, hshown.current.symm.trans htoken, hshown.level ▸ hlevel, hshown.expiresAt ▸ hlt, ?_⟩
    rw [← hshown.activeAt]
    exact hdue
  | elevate id hash at' =>
    cases he
    obtain ⟨hnew, r, hr, hlevel, hlt⟩ := hok
    obtain ⟨c, hc, hshown⟩ := h.chain_of_row hr
    exact ⟨hnew, c, hc, hshown.level.symm.trans hlevel, hshown.expiresAt ▸ hlt⟩
  | raise id =>
    cases he
    obtain ⟨r, hr, hlevel⟩ := hok
    obtain ⟨c, hc, hshown⟩ := h.chain_of_row hr
    exact ⟨c, hc, hshown.level ▸ hlevel⟩
  | delete id =>
    cases he
    obtain ⟨r, hr⟩ := hok
    obtain ⟨c, hc, -⟩ := h.chain_of_row hr
    exact ⟨c, hc⟩

/-- The row of a session after a write shows the session after the write's event. -/
theorem Inv.tracks (h : Inv db) (hok : w.Ok db) (he : w.event = some e) (id : Text) :
    Tracks (e.onChain id (chainOf db.log id)) (w.onRow id (db.sessions.find? id)) := by
  have hallowed := h.allowed hok he
  have hapart := apart h.lawful
  have hrows := h.rows id
  generalize hchain : chainOf db.log id = chain at hrows
  generalize db.sessions.find? id = row at hrows
  cases w with
  | rely found => cases he
  | insertSession input at' =>
    cases he
    unfold Event.onChain Write.onRow
    by_cases hid : input.id = id
    · subst hid
      cases hrows with
      | gone => simpa using Tracks.shown (shown_start input at')
      | shown hshown => exact absurd (mem_opened_of_chainOf hchain) hallowed.1
    · cases hrows with
      | gone => simpa [hid, Ne.symm hid] using Tracks.gone
      | shown hshown => simpa [hid, Ne.symm hid] using Tracks.shown hshown
  | rotate t id' presented hash at' =>
    cases he
    obtain ⟨-, c₀, hc₀, -, hlevel, -⟩ := hallowed
    unfold Event.onChain Write.onRow
    by_cases hid : id' = id
    · subst hid
      obtain rfl : chain = some c₀ := hchain.symm.trans hc₀
      obtain ⟨r, rfl, hshown⟩ := hrows.of_chain
      simpa using Tracks.shown (hshown.rotate hlevel hash at')
    · cases hrows with
      | gone => simpa [hid, Ne.symm hid] using Tracks.gone
      | shown hshown => simpa [hid, Ne.symm hid] using Tracks.shown hshown
  | elevate id' hash at' =>
    cases he
    obtain ⟨-, c₀, hc₀, hlevel, -⟩ := hallowed
    unfold Event.onChain Write.onRow
    by_cases hid : id' = id
    · subst hid
      obtain rfl : chain = some c₀ := hchain.symm.trans hc₀
      obtain ⟨r, rfl, hshown⟩ := hrows.of_chain
      simpa using Tracks.shown (hshown.elevate (hapart.pending id' c₀ hc₀ hlevel) hash at')
    · cases hrows with
      | gone => simpa [hid, Ne.symm hid] using Tracks.gone
      | shown hshown => simpa [hid, Ne.symm hid] using Tracks.shown hshown
  | raise id' =>
    cases he
    obtain ⟨c₀, hc₀, hlevel⟩ := hallowed
    unfold Event.onChain Write.onRow
    by_cases hid : id' = id
    · subst hid
      obtain rfl : chain = some c₀ := hchain.symm.trans hc₀
      obtain ⟨r, rfl, hshown⟩ := hrows.of_chain
      simpa using Tracks.shown (hshown.raise hlevel)
    · cases hrows with
      | gone => simpa [hid, Ne.symm hid] using Tracks.gone
      | shown hshown => simpa [hid, Ne.symm hid] using Tracks.shown hshown
  | delete id' =>
    cases he
    unfold Event.onChain Write.onRow
    by_cases hid : id' = id
    · subst hid
      cases hrows with
      | gone => simpa using Tracks.gone
      | shown hshown => simpa using Tracks.gone
    · cases hrows with
      | gone => simpa [hid, Ne.symm hid] using Tracks.gone
      | shown hshown => simpa [hid, Ne.symm hid] using Tracks.shown hshown

theorem Inv.empty (hlog : db.log = []) (hsessions : db.sessions = Table.empty) (hhistory : db.history = Table.empty) :
    Inv db where
  lawful := by
    rw [hlog]
    exact lawful_nil
  rows := by
    intro id
    rw [hlog, hsessions]
    exact .gone
  history := by
    intro x h hx
    rw [hhistory] at hx
    cases hx
  recorded := by
    intro id c x since hc
    rw [hlog] at hc
    cases hc

/-- The current token of a session is none that a session has superseded. -/
theorem Inv.current_ne (h : Inv db) {id' : Text} {c c' : Chain} {x : Text} {since : Time}
    (hc : chainOf db.log id = some c) (hc' : chainOf db.log id' = some c') (hx : (x, since) ∈ c'.superseded) :
    x ≠ c.current := by
  rintro rfl
  have hapart := apart h.lawful
  have hmem : c.current ∈ c'.superseded.map Prod.fst := List.mem_map.mpr ⟨_, hx, rfl⟩
  have hsame := hapart.one id id' c c' c.current hc hc' List.mem_cons_self (List.mem_cons_of_mem _ hmem)
  subst hsame
  obtain rfl := Option.some.inj (hc.symm.trans hc')
  exact (List.nodup_cons.mp (hapart.nodup id c hc)).1 hmem

theorem Inv.apply (w : Write) (db : Db) (h : Inv db) (hok : w.Ok db) : Inv (w.apply db) := by
  cases he : w.event with
  | none =>
    cases w with
    | rely found => exact h
    | _ => cases he
  | some e =>
    have hallowed := h.allowed hok he
    have hlog : (w.apply db).log = db.log ++ [e] := by
      rw [log_apply, he]
      rfl
    refine ⟨?_, fun id => ?_, fun x row hx => ?_, fun id c x since hc hx => ?_⟩
    · rw [hlog]
      exact h.lawful.concat hallowed
    · rw [hlog, chainOf_concat, find?_apply]
      exact h.tracks hok he id
    · -- a row of the history is an old one, or the one that is inserted
      rw [hlog]
      simp only [chainOf_concat]
      have hold : db.history.find? x = some row → e ≠ .ended row.sessionId →
          ∃ c since, e.onChain row.sessionId (chainOf db.log row.sessionId) = some c ∧ (x, since) ∈ c.superseded := by
        intro hfind hne
        obtain ⟨c, since, hc, hmem⟩ := h.history x row hfind
        obtain ⟨c', hc', -, hkept⟩ := kept_onChain c hne
        exact ⟨c', since, by rw [hc, hc'], hkept _ hmem⟩
      cases w with
      | rely found => cases he
      | rotate t id presented hash at' =>
        cases he
        rw [history_rotate] at hx
        split_ifs at hx with hsame
        · obtain rfl := Option.some.inj hx
          obtain ⟨-, c, hc, rfl, -⟩ := hallowed
          refine ⟨c.rotate hash at', at', ?_, hsame ▸ List.mem_cons_self⟩
          rw [hc]
          exact congrArg some (if_pos rfl)
        · exact hold hx (by simp)
      | delete id =>
        cases he
        have hfind : (db.history.deleteWhere (·.sessionId == id)).find? x = some row := hx
        rw [Table.find?_deleteWhere] at hfind
        obtain ⟨hfind, hother⟩ := Option.filter_eq_some_iff.mp hfind
        refine hold hfind fun heq => ?_
        cases heq
        simp at hother
      | insertSession input at' =>
        cases he
        exact hold hx (by simp)
      | elevate id hash at' =>
        cases he
        exact hold hx (by simp)
      | raise id =>
        cases he
        exact hold hx (by simp)
    · rw [hlog, chainOf_concat] at hc
      have hmoves := moves hallowed id
      rw [hc] at hmoves
      rcases hmoves.superseded hx with ⟨c₀, hc₀, hmem⟩ | ⟨t, new, rfl⟩
      · obtain ⟨row, hfind, hid⟩ := h.recorded id c₀ x since hc₀ hmem
        refine ⟨row, ?_, hid⟩
        cases w with
        | rely found => cases he
        | rotate t id' presented hash at' =>
          cases he
          obtain ⟨-, c₁, hc₁, rfl, -⟩ := hallowed
          rw [history_rotate, if_neg (h.current_ne hc₁ hc₀ hmem)]
          exact hfind
        | delete id' =>
          cases he
          show (db.history.deleteWhere (·.sessionId == id')).find? x = some row
          rw [Table.find?_deleteWhere, hfind]
          refine Option.filter_eq_some_iff.mpr ⟨rfl, ?_⟩
          rw [hc₀] at hc
          unfold Event.onChain at hc
          dsimp only at hc
          split_ifs at hc with hsame
          simpa [hid] using Ne.symm hsame
        | insertSession input at' => exact hfind
        | elevate id' hash at' => exact hfind
        | raise id' => exact hfind
      · cases w with
        | rotate t' id' presented hash at' =>
          cases he
          exact ⟨⟨x, id, since⟩, by rw [history_rotate, if_pos rfl], rfl⟩
        | _ => cases he

/-- How a request is judged changes nothing but the log. -/
theorem Inv.judged (h : Inv db) (he : e.Allowed db.log) (hchain : ∀ id chain, e.onChain id chain = chain) :
    Inv { db with log := db.log ++ [e] } where
  lawful := h.lawful.concat he
  rows := by
    intro id
    show Tracks (chainOf (db.log ++ [e]) id) _
    rw [chainOf_concat, hchain]
    exact h.rows id
  history := by
    intro x row hx
    show ∃ c since, chainOf (db.log ++ [e]) row.sessionId = some c ∧ _
    simp only [chainOf_concat, hchain]
    exact h.history x row hx
  recorded := by
    intro id c x since hc hx
    have hc : chainOf (db.log ++ [e]) id = some c := hc
    rw [chainOf_concat, hchain] at hc
    exact h.recorded id c x since hc hx

end Inv

/-! ## What a call tells -/

/-- While the token is current, its session is not pending, and due for a rotation. -/
def IsDue (db : Db) (id token : Text) (before : Time) : Prop :=
  token ∈ tokens db.log ∧ id ∈ opened db.log ∧ ∀ r, db.sessions.find? id = some r → r.tokenHash = token →
    r.assurance ≠ .pending ∧ r.rotatedAt.getD r.createdAt + seconds SESSION_ROTATE_SECONDS < before

/-- The session is not pending. -/
def Entered (db : Db) (id : Text) : Prop :=
  id ∈ opened db.log ∧ ∀ r, db.sessions.find? id = some r → r.assurance ≠ .pending

/-- The call `t` has raised the alarm; every session that its user had then has ended since, or is one of these. -/
def Covers (t : ℕ) (userId : Text) (P : Text → Prop) (log : List Event) : Prop :=
  ∃ earlier token id how at' later, log = earlier ++ .alarmed t token id userId how at' :: later ∧
    ∀ id' c, chainOf earlier id' = some c → c.userId = userId → .ended id' ∈ later ∨ P id'

/-- What the call `t` tells at its point. -/
def Tells (t : ℕ) (p : GuardDraft) (db : Db) : Prop :=
  match p.point with
  | .reused userId => Covers t userId (fun _ => True) db.log
  | .due rotation => IsDue db rotation.sessionId rotation.presented db.now
  | .rotating rotation startedAt => p.written = [] ∧ IsDue db rotation.sessionId rotation.presented startedAt
  | .updated rotation startedAt =>
    (∀ k ∈ (Write.rotate t rotation.sessionId rotation.presented rotation.hash startedAt).rights,
      (k, Mode.update) ∈ p.held) ∧
    p.written = [.rely (.rotatable rotation.sessionId rotation.presented rotation.hash startedAt)]
  | .pendingLocked id _ startedAt =>
    (RowKey.session id, Mode.update) ∈ p.held ∧ p.written = [.rely (.pending id startedAt)]
  | .raising id => p.written = [] ∧ Entered db id
  | .elevating _ _ _ _ => p.written = []
  | .deleting which ids answer => p.written = [] ∧ ids.Nodup ∧
    (answer = .done ∨ answer = .reuse ∧ ∃ userId, which = .ofUser userId ∧ Covers t userId (· ∈ ids) db.log)
  | .finishing (.served _ (some new)) => ∃ id old at', .rotate t id old new at' ∈ p.written
  | .finishing .reuse => ∃ userId, Covers t userId (fun id => .delete id ∈ p.written) db.log
  | .ended (.served _ (some new)) => ∃ id old at', .rotated t id old new at' ∈ db.log
  | .ended .reuse => ∃ userId, Covers t userId (fun _ => False) db.log
  | _ => True

section Tells

variable {db db' : Db} {w : Write} {id token : Text} {t : ℕ} {p : GuardDraft}

theorem Covers.append {userId : Text} {P : Text → Prop} {log : List Event} (h : Covers t userId P log)
    (events : List Event) : Covers t userId P (log ++ events) := by
  obtain ⟨earlier, token, id, how, at', later, hlog, hall⟩ := h
  refine ⟨earlier, token, id, how, at', later ++ events, ?_, fun id' c hc huser => ?_⟩
  · rw [hlog, List.append_assoc, List.cons_append]
  · exact (hall id' c hc huser).imp_left fun hmem => List.mem_append_left _ hmem

theorem Covers.mono {userId : Text} {P Q : Text → Prop} {log : List Event} (h : Covers t userId P log)
    (hPQ : ∀ id, P id → Q id) : Covers t userId Q log := by
  obtain ⟨earlier, token, id, how, at', later, hlog, hall⟩ := h
  exact ⟨earlier, token, id, how, at', later, hlog, fun id' c hc huser => (hall id' c hc huser).imp_right (hPQ id')⟩

theorem IsDue.apply {before : Time} (h : IsDue db id token before) (hok : w.Ok db) :
    IsDue (w.apply db) id token before := by
  obtain ⟨htoken, hid, hrow⟩ := h
  refine ⟨mem_tokens_apply.mpr (.inl htoken), mem_opened_apply.mpr (.inl hid), fun r hr hsame => ?_⟩
  rw [find?_apply] at hr
  cases w with
  | rely found => exact hrow r hr hsame
  | insertSession input at' =>
    unfold Write.onRow at hr
    dsimp only at hr
    split_ifs at hr with heq
    · exact absurd (heq ▸ hid) hok.1
    · exact hrow r hr hsame
  | rotate t id' presented hash at' =>
    unfold Write.onRow at hr
    dsimp only at hr
    split_ifs at hr with heq
    · obtain ⟨x, -, rfl⟩ := Option.map_eq_some_iff.mp hr
      have hsame : hash = token := hsame
      exact absurd htoken (hsame ▸ hok.1)
    · exact hrow r hr hsame
  | elevate id' hash at' =>
    unfold Write.onRow at hr
    dsimp only at hr
    split_ifs at hr with heq
    · obtain ⟨x, -, rfl⟩ := Option.map_eq_some_iff.mp hr
      have hsame : hash = token := hsame
      exact absurd htoken (hsame ▸ hok.1)
    · exact hrow r hr hsame
  | raise id' =>
    unfold Write.onRow at hr
    dsimp only at hr
    split_ifs at hr with heq
    · obtain ⟨x, hx, rfl⟩ := Option.map_eq_some_iff.mp hr
      exact ⟨by simp, (hrow x hx hsame).2⟩
    · exact hrow r hr hsame
  | delete id' =>
    unfold Write.onRow at hr
    dsimp only at hr
    split_ifs at hr
    exact hrow r hr hsame

theorem Entered.apply (h : Entered db id) (hok : w.Ok db) : Entered (w.apply db) id := by
  obtain ⟨hid, hrow⟩ := h
  refine ⟨mem_opened_apply.mpr (.inl hid), fun r hr => ?_⟩
  rw [find?_apply] at hr
  cases w with
  | rely found => exact hrow r hr
  | insertSession input at' =>
    unfold Write.onRow at hr
    dsimp only at hr
    split_ifs at hr with heq
    · exact absurd (heq ▸ hid) hok.1
    · exact hrow r hr
  | rotate t id' presented hash at' =>
    unfold Write.onRow at hr
    dsimp only at hr
    split_ifs at hr with heq
    · obtain ⟨x, hx, rfl⟩ := Option.map_eq_some_iff.mp hr
      exact hrow x hx
    · exact hrow r hr
  | elevate id' hash at' =>
    unfold Write.onRow at hr
    dsimp only at hr
    split_ifs at hr with heq
    · obtain ⟨x, -, rfl⟩ := Option.map_eq_some_iff.mp hr
      simp [SessionRow.elevated]
    · exact hrow r hr
  | raise id' =>
    unfold Write.onRow at hr
    dsimp only at hr
    split_ifs at hr with heq
    · obtain ⟨x, -, rfl⟩ := Option.map_eq_some_iff.mp hr
      simp
    · exact hrow r hr
  | delete id' =>
    unfold Write.onRow at hr
    dsimp only at hr
    split_ifs at hr
    exact hrow r hr

/-- What a call tells lasts as long as the log grows and what it knows of the sessions stays. -/
theorem Tells.lasts (h : Tells t p db) (events : List Event) (hlog : db'.log = db.log ++ events)
    (hnow : db.now ≤ db'.now) (hdue : ∀ id token before, IsDue db id token before → IsDue db' id token before)
    (hentered : ∀ id, Entered db id → Entered db' id) : Tells t p db' := by
  obtain ⟨point, held, written⟩ := p
  unfold Tells at h ⊢
  cases point with
  | reused userId =>
    dsimp only at h ⊢
    rw [hlog]
    exact h.append events
  | due rotation =>
    obtain ⟨htoken, hid, hrow⟩ := hdue _ _ _ h
    exact ⟨htoken, hid, fun r hr hsame => ⟨(hrow r hr hsame).1, (hrow r hr hsame).2.trans_le hnow⟩⟩
  | rotating rotation startedAt => exact ⟨h.1, hdue _ _ _ h.2⟩
  | raising id => exact ⟨h.1, hentered _ h.2⟩
  | deleting which ids answer =>
    refine ⟨h.1, h.2.1, h.2.2.imp_right fun ⟨hanswer, userId, hwhich, hcovers⟩ => ?_⟩
    exact ⟨hanswer, userId, hwhich, hlog ▸ hcovers.append events⟩
  | finishing answer =>
    cases answer with
    | reuse =>
      obtain ⟨userId, hcovers⟩ := h
      exact ⟨userId, hlog ▸ hcovers.append events⟩
    | served held cookie =>
      cases cookie with
      | none => trivial
      | some new => exact h
    | _ => trivial
  | ended answer =>
    cases answer with
    | reuse =>
      obtain ⟨userId, hcovers⟩ := h
      exact ⟨userId, hlog ▸ hcovers.append events⟩
    | served held cookie =>
      cases cookie with
      | none => trivial
      | some new =>
        obtain ⟨id, old, at', hmem⟩ := h
        refine ⟨id, old, at', ?_⟩
        rw [hlog]
        exact List.mem_append_left _ hmem
    | _ => trivial
  | updated rotation startedAt => exact h
  | pendingLocked id hash startedAt => exact h
  | elevating id presented hash startedAt => exact h
  | _ => trivial

theorem Tells.apply (h : Tells t p db) (hok : w.Ok db) : Tells t p (w.apply db) := by
  refine h.lasts _ (log_apply w db) (le_of_eq ?_) (fun _ _ _ hdue => hdue.apply hok) fun _ hent => hent.apply hok
  cases w <;> rfl

theorem Tells.judged {e : Event} (h : Tells t p db) (hmints : e.mints = none) (hopens : e.opens = none) :
    Tells t p { db with log := db.log ++ [e] } := by
  have htokens : tokens (db.log ++ [e]) = tokens db.log := by simp [hmints]
  have hopened : opened (db.log ++ [e]) = opened db.log := by simp [hopens]
  refine h.lasts [e] rfl le_rfl (fun id token before hdue => ?_) fun id hent => ?_
  · exact ⟨htokens ▸ hdue.1, hopened ▸ hdue.2.1, hdue.2.2⟩
  · exact ⟨hopened ▸ hent.1, hent.2⟩

end Tells

/-! ## What one statement keeps -/

/-- Every write lasts, and every call stands as it tells. -/
structure Good (s : State) : Prop where
  sound : Sound Write.apply Write.Ok Write.rights Inv s
  told : s.Told Tells

variable {s : State} {t : ℕ} {p : GuardDraft} {policy : TwoFactorPolicy}

theorem view_of_nil {db : Db} (h : p.written = []) : p.view Write.apply db = db := by
  unfold Draft.view
  rw [h]
  rfl

theorem Good.leaves (h : Good s) {point : Point} (ht : Tells t ⟨point, [], []⟩ s.db) : Good (s.leave t point) :=
  ⟨h.sound.leave, h.told.put ht⟩

theorem Good.writes (h : Good s) (hp : s.phase? t = some p) {point : Point} {locks : List (RowKey × Mode)}
    {ws : List Write} (hcov : ∀ w ∈ ws, ∀ k ∈ w.rights, ∃ m, (k, m) ∈ p.held ++ locks ∧ m.changes = true)
    (hok : AllOk Write.apply Write.Ok ws (p.view Write.apply s.db))
    (ht : Tells t ⟨point, p.held ++ locks, p.written ++ ws⟩ s.db) : Good (s.write t p point locks ws) :=
  ⟨h.sound.write hp hcov hok, h.told.enter ht⟩

theorem Good.write (h : Good s) (hp : s.phase? t = some p) {point : Point} {locks : List (RowKey × Mode)}
    {w : Write} (hcov : ∀ k ∈ w.rights, ∃ m, (k, m) ∈ p.held ++ locks ∧ m.changes = true)
    (hok : w.Ok (p.view Write.apply s.db))
    (ht : Tells t ⟨point, p.held ++ locks, p.written ++ [w]⟩ s.db) : Good (s.write t p point locks [w]) := by
  refine h.writes hp (fun v hv => ?_) ⟨hok, trivial⟩ ht
  rw [List.mem_singleton.mp hv]
  exact hcov

theorem Good.note (h : Good s) {e : Event} (he : e.Allowed s.db.log) (hmints : e.mints = none)
    (hopens : e.opens = none) (hchain : ∀ id chain, e.onChain id chain = chain) : Good (note s e) := by
  refine ⟨h.sound.shift localWrites (fun k => ?_) (h.sound.inv.judged he hchain),
    h.told.shift fun t p ht => ht.judged hmints hopens⟩
  cases k with
  | session id =>
    refine ⟨rfl, fun hnone => ?_⟩
    show id ∉ opened (s.db.log ++ [e])
    simpa [hopens] using hnone
  | tokenHash hash =>
    intro hnone
    show hash ∉ tokens (s.db.log ++ [e])
    simpa [hmints] using hnone

/-- The commit of a call whose answer is its own, or that of its failure. -/
theorem Good.finish (h : Good s) (hp : s.phase? t = some p) {answer : Answer} (hpoint : p.point = .finishing answer)
    {answer' : Answer} (hanswer : answer' = answer ∨ answer' = (Point.finishing answer).failure) :
    Good (s.finish Write.apply t p (.ended answer')) := by
  refine ⟨h.sound.finish localWrites Inv.apply hp,
    h.sound.told_finish hp h.told (fun u q w db ht hok => ht.apply hok) ?_⟩
  have htold := h.told t p hp
  have hlog : (p.view Write.apply s.db).log = s.db.log ++ p.written.filterMap Write.event := log_applyAll _ _
  unfold Tells at htold ⊢
  rw [hpoint] at htold
  dsimp only at htold ⊢
  rcases hanswer with rfl | rfl
  · cases answer' with
    | served held cookie =>
      cases cookie with
      | none => trivial
      | some new =>
        obtain ⟨id, old, at', hmem⟩ := htold
        refine ⟨id, old, at', ?_⟩
        rw [hlog]
        exact List.mem_append_right _ (List.mem_filterMap.mpr ⟨_, hmem, rfl⟩)
    | reuse =>
      obtain ⟨userId, earlier, token, id, how, at', later, hsplit, hall⟩ := htold
      refine ⟨userId, earlier, token, id, how, at', later ++ p.written.filterMap Write.event, ?_,
        fun id' c hc huser => .inl ?_⟩
      · rw [hlog, hsplit, List.append_assoc, List.cons_append]
      · rcases hall id' c hc huser with hended | hdeleted
        · exact List.mem_append_left _ hended
        · exact List.mem_append_right _ (List.mem_filterMap.mpr ⟨_, hdeleted, rfl⟩)
    | _ => trivial
  · cases answer <;> trivial

/-! ## The lookups -/

theorem findActiveSession_spec {db : Db} {token : Text} {session : ActiveSession}
    (h : findActiveSession db token = some session) : ∃ r a, db.sessions.find? r.id = some r ∧
      presents token r = true ∧ a.id = r.userId ∧ a.disabled = false ∧ r.live db.now a.secondFactor = true ∧
      session = activeSession db.now token r a := by
  obtain ⟨r, hr, hsome⟩ := List.exists_of_findSome?_eq_some h
  obtain ⟨hmem, hpresents⟩ := List.mem_filter.mp hr
  obtain ⟨a, ha, rfl⟩ := Option.map_eq_some_iff.mp hsome
  obtain ⟨hfind, hlive⟩ := Option.filter_eq_some_iff.mp ha
  rw [Bool.and_eq_true, Bool.not_eq_true'] at hlive
  have hkey : a.id = r.userId := Table.key_of_find? hfind
  exact ⟨r, a, Table.find?_of_mem hmem, hpresents, hkey, hlive.2, hlive.1, rfl⟩

theorem live_spec {r : SessionRow} {now : Time} {factor : Bool} (h : r.live now factor = true) :
    now < r.expiresAt ∧ (r.assurance = .mfa ∨ r.assurance = .password ∧ factor = false) := by
  unfold SessionRow.live at h
  simpa using h

/-- A row that presents a token other than its current one presents its previous one. -/
theorem Chain.Shown.previous_of_presents {c : Chain} {r : SessionRow} {token : Text} (h : c.Shown r)
    (hpresents : presents token r = true) (hne : r.tokenHash ≠ token) :
    ∃ since, c.superseded.head? = some (token, since) ∧ r.rotatedAt = some since := by
  unfold presents at hpresents
  rw [Bool.or_eq_true, beq_iff_eq, beq_iff_eq] at hpresents
  have hprevious := hpresents.resolve_left hne
  rw [h.previous] at hprevious
  obtain ⟨⟨x, since⟩, hhead, rfl⟩ := Option.map_eq_some_iff.mp hprevious
  exact ⟨since, hhead, h.since x since hhead⟩

theorem Good.judge (h : Good s) {request : Request} {session : ActiveSession}
    (hfind : findActiveSession s.db request.token = some session) : Good (judge policy s t request session) := by
  obtain ⟨r, a, hr, hpresents, hkey, henabled, hlive, rfl⟩ := findActiveSession_spec hfind
  obtain ⟨hunexpired, hlevel⟩ := live_spec hlive
  obtain ⟨c, hc, hshown⟩ := h.sound.inv.chain_of_row hr
  have howner : a.id = c.userId := hkey.trans hshown.userId
  rw [hshown.expiresAt] at hunexpired
  unfold Guard.judge
  split_ifs with hreuse hcross hdue
  · obtain ⟨hmatched, hover⟩ := hreuse
    have hne : r.tokenHash ≠ request.token := by
      intro heq
      simp [activeSession, heq] at hmatched
    obtain ⟨since, hhead, hsince⟩ := hshown.previous_of_presents hpresents hne
    have hlate : since + seconds SESSION_ROTATION_GRACE_SECONDS < s.db.now := by
      simpa [activeSession, hsince] using hover
    have hallowed : Event.Allowed s.db.log (.alarmed t request.token r.id a.id .previous s.db.now) :=
      ⟨c, hc, howner.symm, hunexpired, ⟨since, List.mem_of_mem_head? hhead⟩, fun _ => ⟨since, hhead, hlate⟩⟩
    refine (h.note hallowed rfl rfl fun _ chain => by cases chain <;> rfl).leaves ?_
    exact ⟨s.db.log, request.token, r.id, .previous, s.db.now, [], rfl, fun _ _ _ _ => .inr trivial⟩
  · exact h.leaves trivial
  all_goals
    have hrecent : request.token = c.current ∨ ∃ since, c.superseded.head? = some (request.token, since) ∧
        s.db.now ≤ since + seconds SESSION_ROTATION_GRACE_SECONDS := by
      by_cases hsame : r.tokenHash = request.token
      · exact .inl (hsame.symm.trans hshown.current)
      · obtain ⟨since, hhead, hsince⟩ := hshown.previous_of_presents hpresents hsame
        refine .inr ⟨since, hhead, le_of_not_gt fun hlt => hreuse ?_⟩
        simp [activeSession, hsame, hsince, hlt]
    have hallowed : Event.Allowed s.db.log (.admitted t request.token r.id a s.db.now) :=
      ⟨c, hc, howner, henabled, by simpa [hshown.level] using hlevel, hunexpired, hrecent⟩
    have hnoted := h.note hallowed rfl rfl fun _ chain => by cases chain <;> rfl
    refine hnoted.leaves ?_
  · have hsame : r.tokenHash = request.token := by
      by_contra hne
      simp [activeSession, hne] at hdue
    have hage : r.rotatedAt.getD r.createdAt + seconds SESSION_ROTATE_SECONDS < s.db.now := by
      simpa [activeSession] using hdue.2
    have htoken : request.token ∈ tokens s.db.log := by
      refine (apart h.sound.inv.lawful).minted r.id c hc _ ?_
      rw [← hsame, hshown.current]
      exact List.mem_cons_self
    have hisdue : IsDue s.db r.id request.token s.db.now := by
      refine ⟨htoken, mem_opened_of_chainOf hc, fun r' hr' _ => ?_⟩
      obtain rfl := Option.some.inj (hr.symm.trans hr')
      refine ⟨fun hpending => ?_, hage⟩
      rcases hlevel with hlevel | ⟨hlevel, -⟩ <;> rw [hlevel] at hpending <;> cases hpending
    have htells : Tells t ⟨.due ⟨r.id, request.token, request.minted, false⟩, [], []⟩ s.db := hisdue
    exact htells.judged (e := .admitted t request.token r.id a s.db.now) rfl rfl
  · trivial

theorem Good.lookBack (h : Good s) (request : Request) : Good (lookBack s t request) := by
  unfold Guard.lookBack
  split
  next id userId hfind =>
    obtain ⟨row, hrow, hrest⟩ := Option.bind_eq_some_iff.mp hfind
    obtain ⟨r, hr, heq⟩ := Option.map_eq_some_iff.mp hrest
    cases heq
    obtain ⟨hr, hlt⟩ := Option.filter_eq_some_iff.mp hr
    have hid : r.id = row.sessionId := Table.key_of_find? hr
    obtain ⟨c, since, hc, hmem⟩ := h.sound.inv.history _ _ hrow
    obtain ⟨c', hc', hshown⟩ := h.sound.inv.chain_of_row hr
    obtain rfl := Option.some.inj (hc.symm.trans hc')
    have hunexpired : s.db.now < c.expiry := hshown.expiresAt ▸ of_decide_eq_true hlt
    have hallowed : Event.Allowed s.db.log (.alarmed t request.token r.id r.userId .history s.db.now) :=
      ⟨c, hid ▸ hc, hshown.userId.symm, hunexpired, ⟨since, hmem⟩, fun h => by cases h⟩
    refine (h.note hallowed rfl rfl fun _ chain => by cases chain <;> rfl).leaves ?_
    exact ⟨s.db.log, request.token, r.id, .history, s.db.now, [], rfl, fun _ _ _ _ => .inr trivial⟩
  next hfind =>
    refine (h.note ?_ rfl rfl fun _ chain => by cases chain <;> rfl).leaves trivial
    intro id c since hc hmem
    obtain ⟨row, hrow, rfl⟩ := h.sound.inv.recorded id c _ since hc hmem
    obtain ⟨r, hr, hshown⟩ := h.sound.inv.row_of_chain hc
    by_contra hlt
    have hunexpired : s.db.now < r.expiresAt := by
      rw [hshown.expiresAt]
      exact Nat.lt_of_not_le hlt
    unfold findSessionBySupersededToken at hfind
    rw [hrow, Option.bind_some, hr] at hfind
    simp [Option.filter, hunexpired] at hfind

theorem Good.delete (h : Good s) {which : Deletion} {answer : Answer}
    (hanswer : answer = .done ∨
      answer = .reuse ∧ ∃ userId, which = .ofUser userId ∧ Covers t userId (fun _ => True) s.db.log) :
    Good (delete s t which answer) := by
  refine h.leaves ⟨rfl, (List.filter_sublist.map _).nodup s.db.sessions.unique, hanswer.imp_right fun hreuse => ?_⟩
  obtain ⟨hsame, userId, rfl, earlier, token, id, how, at', later, hlog, -⟩ := hreuse
  refine ⟨hsame, userId, rfl, earlier, token, id, how, at', later, hlog, fun id' c hc huser => ?_⟩
  rcases ended_or_kept hc (.alarmed t token id userId how at' :: later) with hended | ⟨c', hc', huser'⟩
  · exact .inl ((List.mem_cons.mp hended).resolve_left (by simp))
  · right
    rw [← hlog] at hc'
    obtain ⟨r, hr, hshown⟩ := h.sound.inv.row_of_chain hc'
    have hkey : r.id = id' := Table.key_of_find? hr
    refine List.mem_map.mpr ⟨r, List.mem_filter.mpr ⟨Table.mem_of_find? hr, ?_⟩, hkey⟩
    exact beq_iff_eq.mpr (hshown.userId.trans (huser'.trans huser))

/-! ## The statements -/

theorem notMem_of_unminted {db : Db} {hash : Text} (h : unminted db hash = true) : hash ∉ tokens db.log := by
  intro hmem
  unfold unminted at h
  rw [Bool.not_eq_true', List.any_eq_false] at h
  exact h hash hmem (beq_self_eq_true hash)

theorem allOk_deletes {ids : List Text} {db : Db} (hnodup : ids.Nodup)
    (h : ∀ id ∈ ids, ∃ r, db.sessions.find? id = some r) :
    AllOk Write.apply Write.Ok (ids.map .delete) db := by
  induction ids generalizing db with
  | nil => trivial
  | cons i ids ih =>
    obtain ⟨hout, hnodup⟩ := List.nodup_cons.mp hnodup
    refine ⟨h i List.mem_cons_self, ih hnodup fun id hid => ?_⟩
    obtain ⟨r, hr⟩ := h id (List.mem_cons_of_mem _ hid)
    refine ⟨r, ?_⟩
    rw [find?_apply]
    refine (if_neg fun heq => ?_).trans hr
    exact hout (heq ▸ hid)

/-- The `DELETE` is granted the sessions that it still selects. -/
theorem Good.deletes (h : Good s) (hp : s.phase? t = some p) {which : Deletion} {ids : List Text} {answer : Answer}
    (hpoint : p.point = .deleting which ids answer) {gone : List Text}
    (hgone : gone = ids.filter fun id => (s.db.sessions.find? id).any which.selects) :
    Good (s.write t p (.finishing answer) (gone.map fun id => (.session id, .update)) (gone.map .delete)) := by
  have htold := h.told t p hp
  unfold Tells at htold
  rw [hpoint] at htold
  obtain ⟨hwritten, hnodup, hanswer⟩ := htold
  refine h.writes hp (fun w hw k hk => ?_) ?_ ?_
  · obtain ⟨id, hid, rfl⟩ := List.mem_map.mp hw
    rw [List.mem_singleton.mp hk]
    exact ⟨.update, List.mem_append_right _ (List.mem_map_of_mem hid), rfl⟩
  · rw [view_of_nil hwritten, hgone]
    refine allOk_deletes (hnodup.filter _) fun id hid => ?_
    obtain ⟨r, hr, -⟩ := (Option.any_eq_true _ _).mp (List.mem_filter.mp hid).2
    exact ⟨r, hr⟩
  · rcases hanswer with rfl | ⟨rfl, userId, rfl, hcovers⟩
    · trivial
    · obtain ⟨earlier, token, id, how, at', later, hlog, hall⟩ := hcovers
      refine ⟨userId, earlier, token, id, how, at', later, hlog, fun id' c hc huser => ?_⟩
      refine (hall id' c hc huser).elim .inl fun hmem => ?_
      rcases ended_or_kept hc (.alarmed t token id userId how at' :: later) with hended | ⟨c', hc', huser'⟩
      · exact .inl ((List.mem_cons.mp hended).resolve_left (by simp))
      · rw [← hlog] at hc'
        obtain ⟨r, hr, hshown⟩ := h.sound.inv.row_of_chain hc'
        refine .inr (List.mem_append_right _ (List.mem_map.mpr ⟨id', ?_, rfl⟩))
        rw [hgone]
        refine List.mem_filter.mpr ⟨hmem, (Option.any_eq_true _ _).mpr ⟨r, hr, ?_⟩⟩
        exact beq_iff_eq.mpr (hshown.userId.trans (huser'.trans huser))

theorem Good.next (h : Good s) (hp : s.phase? t = some p) : Good (nextStatement policy s t p) := by
  have htold := h.told t p hp
  have hlasting : AllOk Write.apply Write.Ok p.written s.db := h.sound.lasting t p hp
  obtain ⟨point, held, written⟩ := p
  unfold nextStatement
  unfold Tells at htold
  cases point with
  | asking request =>
    dsimp only
    split
    next session hfind => exact h.judge hfind
    next => exact h.leaves trivial
  | missed request => exact h.lookBack request
  | reused userId => exact h.delete (.inr ⟨rfl, userId, rfl, htold⟩)
  | due rotation => exact h.leaves ⟨rfl, htold⟩
  | rotating rotation startedAt =>
    obtain ⟨rfl, hdue⟩ := htold
    have hview : Draft.view Write.apply (⟨.rotating rotation startedAt, held, []⟩ : GuardDraft) s.db = s.db := rfl
    dsimp only
    rw [hview]
    split_ifs with hfound hminted
    · obtain ⟨r, hr, hrotatable⟩ := (Option.any_eq_true _ _).mp hfound
      unfold SessionRow.rotatable at hrotatable
      rw [Bool.and_eq_true, beq_iff_eq, decide_eq_true_eq] at hrotatable
      obtain ⟨hlevel, hage⟩ := hdue.2.2 r hr hrotatable.1
      refine h.write hp (fun k hk => ?_)
        ⟨notMem_of_unminted hminted, r, hr, hrotatable.1, hlevel, hrotatable.2, hage⟩ ⟨fun k hk => ?_, rfl⟩
      · refine ⟨.update, List.mem_append_right _ ?_, rfl⟩
        rcases List.mem_cons.mp hk with rfl | hk
        · exact List.mem_cons_self
        · rw [List.mem_singleton.mp hk]
          exact List.mem_cons_of_mem _ List.mem_cons_self
      · refine List.mem_append_right _ ?_
        rcases List.mem_cons.mp hk with rfl | hk
        · exact List.mem_cons_self
        · rw [List.mem_singleton.mp hk]
          exact List.mem_cons_of_mem _ List.mem_cons_self
    · exact h.leaves trivial
    · exact h.leaves trivial
  | updated rotation startedAt =>
    obtain ⟨hheld, rfl⟩ := htold
    dsimp only
    split_ifs
    · exact h.leaves trivial
    · refine h.write hp (fun k hk => ⟨.update, List.mem_append_left _ (hheld k hk), rfl⟩) hlasting.1 ?_
      exact ⟨_, _, _, List.mem_append_right _ (List.mem_singleton_self _)⟩
  | opening input startedAt =>
    dsimp only
    split_ifs with hfresh
    · rw [Bool.and_eq_true, Bool.not_eq_true', List.any_eq_false] at hfresh
      refine h.write hp (fun k hk => ?_) ⟨fun hmem => ?_, notMem_of_unminted hfresh.1⟩ trivial
      · refine ⟨.update, List.mem_append_right _ ?_, rfl⟩
        rcases List.mem_cons.mp hk with rfl | hk
        · exact List.mem_cons_self
        · rw [List.mem_singleton.mp hk]
          exact List.mem_cons_of_mem _ List.mem_cons_self
      · exact hfresh.2 _ hmem (beq_self_eq_true input.id)
    · exact h.leaves trivial
  | elevating id presented hash startedAt =>
    have hwritten : written = [] := htold
    subst hwritten
    have hview : Draft.view Write.apply (⟨.elevating id presented hash startedAt, held, []⟩ : GuardDraft) s.db =
        s.db := rfl
    dsimp only
    rw [hview]
    split_ifs with hfound
    · obtain ⟨r, hr, hpending⟩ := (Option.any_eq_true _ _).mp hfound
      unfold SessionRow.pendingFor at hpending
      simp only [Bool.and_eq_true, beq_iff_eq, decide_eq_true_eq] at hpending
      refine h.write hp (fun k hk => ?_) ⟨r, hr, hpending.1.1.2, hpending.1.2⟩ ⟨?_, rfl⟩
      · rw [List.mem_singleton.mp hk]
        exact ⟨.update, List.mem_append_right _ (List.mem_singleton_self _), rfl⟩
      · exact List.mem_append_right _ (List.mem_singleton_self _)
    · exact h.leaves trivial
  | pendingLocked id hash startedAt =>
    obtain ⟨hheld, rfl⟩ := htold
    dsimp only
    split_ifs with hminted
    · refine h.write hp (fun k hk => ?_) ⟨notMem_of_unminted hminted, hlasting.1⟩ trivial
      rcases List.mem_cons.mp hk with rfl | hk
      · exact ⟨.update, List.mem_append_left _ hheld, rfl⟩
      · rw [List.mem_singleton.mp hk]
        exact ⟨.update, List.mem_append_right _ (List.mem_singleton_self _), rfl⟩
    · exact h.leaves trivial
  | raising id =>
    obtain ⟨rfl, hentered⟩ := htold
    have hview : Draft.view Write.apply (⟨.raising id, held, []⟩ : GuardDraft) s.db = s.db := rfl
    dsimp only
    rw [hview]
    split_ifs with hfound
    · obtain ⟨r, hr⟩ := Option.isSome_iff_exists.mp hfound
      refine h.write hp (fun k hk => ?_) ⟨r, hr, hentered.2 r hr⟩ trivial
      rw [List.mem_singleton.mp hk]
      exact ⟨.noKeyUpdate, List.mem_append_right _ (List.mem_singleton_self _), rfl⟩
    · exact h.leaves trivial
  | deleting which ids answer =>
    have hwritten : written = [] := htold.1
    subst hwritten
    exact h.deletes hp rfl rfl
  | finishing answer => exact h.finish hp rfl (.inl rfl)
  | ended answer => exact h

/-! ## Every run -/

theorem Good.start (h : Good s) (t : ℕ) (call : Call) : Good (start s t call) := by
  unfold Guard.start
  cases call with
  | request request => exact h.leaves trivial
  | createSession input => exact h.leaves trivial
  | elevatePendingSession id presented hash => exact h.leaves rfl
  | raiseSession id =>
    dsimp only
    split_ifs with hfound
    · obtain ⟨r, hr, hlevel⟩ := (Option.any_eq_true _ _).mp hfound
      obtain ⟨c, hc, -⟩ := h.sound.inv.chain_of_row hr
      refine h.leaves ⟨rfl, mem_opened_of_chainOf hc, fun r' hr' => ?_⟩
      obtain rfl := Option.some.inj (hr.symm.trans hr')
      simpa using hlevel
    · exact h.leaves trivial
  | deleteSessions which => exact h.delete (.inl rfl)

/-- A call that fails is not answered with a cookie, nor with the revocation. -/
theorem tells_failure (point : Point) (db : Db) : Tells t ⟨.ended point.failure, [], []⟩ db := by
  unfold Tells Point.failure
  cases point with
  | finishing answer => cases answer <;> trivial
  | deleting which ids answer => cases answer <;> trivial
  | _ => trivial

theorem Good.step (h : Good s) (a : Action) : Good (step policy s a) := by
  unfold Guard.step
  cases a with
  | start t call =>
    dsimp only
    split_ifs
    · exact h
    · exact h.start t call
  | next t =>
    dsimp only
    cases hp : s.phase? t with
    | none => exact h
    | some p => exact h.next hp
  | fail t =>
    dsimp only
    cases hp : s.phase? t with
    | none => exact h
    | some p =>
      rw [Option.elim_some]
      split_ifs
      · exact h
      · exact h.leaves (tells_failure p.point s.db)
  | lose t =>
    dsimp only
    cases hp : s.phase? t with
    | none => exact h
    | some p =>
      rw [Option.elim_some]
      unfold lose
      split
      next answer hpoint => exact h.finish hp hpoint (.inr rfl)
      next => exact h
  | changeAccounts accounts =>
    have hinv := h.sound.inv
    refine ⟨h.sound.shift localWrites (fun k => ?_) ⟨hinv.1, hinv.2, hinv.3, hinv.4⟩,
      h.told.shift fun t p ht => ht.lasts [] (List.append_nil _).symm le_rfl (fun _ _ _ h => h) fun _ h => h⟩
    cases k with
    | session id => exact Agree.refl (.session id) s.db
    | tokenHash hash => exact Agree.refl (.tokenHash hash) s.db
  | tick ms =>
    have hinv := h.sound.inv
    refine ⟨h.sound.shift localWrites (fun k => ?_) ⟨hinv.1, hinv.2, hinv.3, hinv.4⟩,
      h.told.shift fun t p ht => ht.lasts [] (List.append_nil _).symm (Nat.le_add_right _ _) (fun _ _ _ h => h)
        fun _ h => h⟩
    cases k with
    | session id => exact Agree.refl (.session id) s.db
    | tokenHash hash => exact Agree.refl (.tokenHash hash) s.db

theorem good_run (policy : TwoFactorPolicy) (accounts : Table Account.id) (now : Time) (actions : List Action) :
    Good (Run.run (Guard.step policy) (init accounts now) actions) := by
  have hinit : Good (init accounts now) := ⟨Sound.init (Inv.empty rfl rfl rfl), Store.told_init _ _⟩
  exact Run.foldl_invariant Good (fun _ a h => h.step a) hinit actions

/-! ## The runs -/

/-- The call has ended with this answer. -/
def answered (s : State) (t : ℕ) (answer : Answer) : Prop :=
  ∃ p, s.phase? t = some p ∧ p.point = .ended answer

/-- What holds of the sessions and of the requests that present their tokens. -/
structure Guarded (s : State) : Prop where
  /-- Each event was allowed after those before it. -/
  lawful : Lawful Event.Allowed s.db.log
  /-- The rows show the chains, and the history what they superseded. -/
  shown : ∀ id, Tracks (chainOf s.db.log id) (s.db.sessions.find? id)
  superseded : ∀ id x, (∃ row, s.db.history.find? x = some row ∧ row.sessionId = id) ↔
    ∃ c since, chainOf s.db.log id = some c ∧ (x, since) ∈ c.superseded
  /-- A token is superseded once, so of the requests that present it one at most gets a new cookie. -/
  once : ∀ t t' id id' old new new' at' at'', .rotated t id old new at' ∈ s.db.log →
    .rotated t' id' old new' at'' ∈ s.db.log → t = t' ∧ id = id' ∧ new = new' ∧ at' = at''
  cookie : ∀ t held new, answered s t (.served held (some new)) → ∃ id old at', .rotated t id old new at' ∈ s.db.log
  /-- A superseded token is admitted for a short while only. -/
  grace : ∀ earlier later t u id id' old new account at' at'',
    s.db.log = earlier ++ .admitted u old id' account at'' :: later → .rotated t id old new at' ∈ earlier →
    at'' ≤ at' + seconds SESSION_ROTATION_GRACE_SECONDS
  /-- The token of a pending session opens nothing, before or after its elevation. -/
  pending : ∀ input at' t id account at'', .opened input at' ∈ s.db.log → input.assurance = .pending →
    .admitted t input.tokenHash id account at'' ∉ s.db.log
  /-- Once the alarm is answered, every session that the user had then has ended, and admits nobody again. -/
  revoked : ∀ t, answered s t .reuse → ∃ userId, Covers t userId (fun _ => False) s.db.log
  ended : ∀ earlier later id t token account at', s.db.log = earlier ++ .ended id :: later →
    .admitted t token id account at' ∉ later

theorem Good.guarded (h : Good s) : Guarded s where
  lawful := h.sound.inv.lawful
  shown := h.sound.inv.rows
  superseded := by
    intro id x
    constructor
    · rintro ⟨row, hrow, rfl⟩
      exact h.sound.inv.history x row hrow
    · rintro ⟨c, since, hc, hmem⟩
      exact h.sound.inv.recorded id c x since hc hmem
  once := by
    intro t t' id id' old new new' at' at'' hr hr'
    have hsame := rotated_once h.sound.inv.lawful hr hr'
    cases hsame
    exact ⟨rfl, rfl, rfl, rfl⟩
  cookie := by
    rintro t held new ⟨p, hp, hpoint⟩
    have htold := h.told t p hp
    unfold Tells at htold
    rw [hpoint] at htold
    exact htold
  grace := fun _ _ _ _ _ _ _ _ _ _ _ hlog hr => admitted_within_grace h.sound.inv.lawful hlog hr
  pending := fun _ _ _ _ _ _ hopened hpending => pending_not_admitted h.sound.inv.lawful hopened hpending
  revoked := by
    rintro t ⟨p, hp, hpoint⟩
    have htold := h.told t p hp
    unfold Tells at htold
    rw [hpoint] at htold
    exact htold
  ended := fun _ _ _ _ _ _ _ hlog => ended_not_admitted h.sound.inv.lawful hlog

/-- **Rotation and reuse.**  In every run of requests, sign-ins, elevations, revocations and purges, whatever
fails, the tokens of a session are a chain: each is superseded once, at most once a minute, while its session
has not expired.  A request is admitted only with the current token of a session of an enabled account, or
within the grace period with the one before it; any superseded token of a session that has not expired raises
the alarm, and once that is answered all sessions of the user have ended. -/
theorem rotation_guarded (policy : TwoFactorPolicy) (accounts : Table Account.id) (now : Time)
    (actions : List Action) : Guarded (Run.run (step policy) (init accounts now) actions) :=
  (good_run policy accounts now actions).guarded

/-! ## One run -/

/-- Six statements of a call. -/
def callRun (t : ℕ) (call : Call) : List Action := .start t call :: List.replicate 6 (.next t)

def present (token minted : Text) : Call := .request ⟨token, false, ['/'], minted⟩

/-- A token is superseded after a minute, admitted within the grace period, and raises the alarm after it. -/
example :
    let accounts : Table Account.id := ⟨[⟨['u'], .member, false, false⟩], by decide⟩
    let s := Run.run (step .none) (init accounts 0)
      (callRun 0 (.createSession ⟨['s'], ['a'], ['u'], .password, none⟩) ++ [.tick 60001] ++
        callRun 1 (present ['a'] ['b']) ++ callRun 2 (present ['a'] ['c']) ++ [.tick 30001] ++
        callRun 3 (present ['a'] ['d']) ++ callRun 4 (present ['b'] ['e']))
    (List.range 5).map (fun t => (s.phase? t).map (·.point)) =
      [some (.ended .done), some (.ended (.served false (some ['b']))), some (.ended (.served false none)),
        some (.ended .reuse), some (.ended .turnedAway)] := by
  decide +kernel

end BunMail.Users.Guard
