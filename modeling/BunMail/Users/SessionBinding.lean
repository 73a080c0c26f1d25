import BunMail.Users.PasswordReplacement

/-!
# No session outlives its credential

A replacement deletes, with a credential, every session that is bound to it: those committed before
the credential was locked by the cascade, and after that none is inserted.  Ids are never minted
twice, so what a replacement deleted stays away.
-/

namespace BunMail.Users.Passwords

open Transactions Store Run

/-! ## What a running call relies on -/

/-- The `DELETE` has found the session, and waits for it. -/
def Pending (id : Text) (todo : List Statement) : Prop :=
  ∃ ids, Statement.lockSessions ids ∈ todo ∧ id ∈ ids

/-- The credential of the compare and swap is deleted after it. -/
def Ordered : List Statement → Prop
  | [] => True
  | .lockCredential id _ :: rest => .deleteCredentials (.byId id) ∈ rest ∧ Ordered rest
  | _ :: rest => Ordered rest

/-- What holds of a replacement and the committed tables until it ends. -/
structure Progress.Sound (p : Progress) (db : Tables) : Prop where
  ordered : Ordered p.todo
  committed : ∀ c ∈ p.credentials, c ∈ db.credentials.keys
  covered : ∀ r ∈ db.sessions.rows, ∀ c ∈ p.credentials, r.credentialId = some c →
    r.id ∈ p.sessions ∨ .cascade ∈ p.todo ∨ Pending r.id p.todo
  before : ∀ id ∈ p.before, id ∈ p.sessions ∨ Pending id p.todo
  verified : ∀ c, p.verified = some c → c ∈ db.credentials.keys ∧
    (c ∈ p.credentials ∨ .deleteCredentials (.byId c) ∈ p.todo ∨
      ∃ ids, .lockCredentials ids ∈ p.todo ∧ c ∈ ids)
  credential : .insertCredential ∈ p.todo ∨ p.newCredential = some p.credentialRow ∧
    ∀ c ∈ db.credentials.rows, c.id ∉ p.credentials → c.clashes p.credentialRow = false
  session : .createSession ∈ p.todo ∨ ∃ now, p.newSession = some (p.sessionInput.row now)
  found : ∀ id ∈ p.before, id ∈ db.sessions.keys

/-- What a phase relies on. -/
def fact : Phase → Tables → Prop
  | .loginInserted row c, db => row.credentialId = some c ∧ c ∈ db.credentials.keys
  | .running p, db => p.Sound db
  | _, _ => True

section Statements

variable {db : Tables} {p : Progress} {rest : List Statement} {id : Text}

theorem sound_changePassword (db : Tables) (userId : Text) (mfa : Bool) (ids : MintedIds)
    (credentialId verifiedHash : Text) :
    (changePassword userId mfa ids credentialId verifiedHash).Sound db := by
  constructor <;> simp [changePassword, Ordered]

theorem sound_completePasswordReset (db : Tables) (userId : Text) (ids : MintedIds) :
    (completePasswordReset userId ids).Sound db := by
  constructor <;> simp [completePasswordReset, Ordered]

theorem pending_cons {st : Statement} (h : Pending id (st :: rest))
    (hst : ∀ ids, st ≠ .lockSessions ids) : Pending id rest := by
  obtain ⟨ids, hm, hid⟩ := h
  rcases List.mem_cons.mp hm with hm | hm
  · exact absurd hm.symm (hst ids)
  · exact ⟨ids, hm, hid⟩

theorem Pending.cons {st : Statement} (h : Pending id rest) : Pending id (st :: rest) := by
  obtain ⟨ids, hm, hid⟩ := h
  exact ⟨ids, List.mem_cons_of_mem _ hm, hid⟩

theorem mem_rest {st x : Statement} (h : x ∈ st :: rest) (hne : x ≠ st) : x ∈ rest :=
  (List.mem_cons.mp h).resolve_left hne

theorem Ordered.tail {st : Statement} (h : Ordered (st :: rest)) : Ordered rest := by
  cases st
  case lockCredential => exact h.2
  all_goals exact h

/-- What a statement that finds no sessions and deletes nothing leaves. -/
theorem Progress.Sound.tail {st : Statement} (h : p.Sound db) (ht : p.todo = st :: rest)
    (hst : st = .check ∨ st = .lockAccountRow ∨ (∃ id hash, st = .lockCredential id hash) ∨
      st = .insertCredential ∨ st = .createSession) :
    Ordered rest ∧
      (∀ r ∈ db.sessions.rows, ∀ c ∈ p.credentials, r.credentialId = some c →
        r.id ∈ p.sessions ∨ .cascade ∈ rest ∨ Pending r.id rest) ∧
      (∀ id ∈ p.before, id ∈ p.sessions ∨ Pending id rest) ∧
      ∀ c, p.verified = some c → c ∈ db.credentials.keys ∧
        (c ∈ p.credentials ∨ .deleteCredentials (.byId c) ∈ rest ∨
          ∃ ids, .lockCredentials ids ∈ rest ∧ c ∈ ids) := by
  obtain ⟨ho, _, hc, hb, hv, _, _, _⟩ := h
  rw [ht] at ho hc hb hv
  have hfind : ∀ ids, st ≠ .lockSessions ids := by
    rintro ids rfl
    simp at hst
  have hcascade : Statement.cascade ≠ st := by
    rintro rfl
    simp at hst
  refine ⟨ho.tail, fun r hr c hcm hrc => ?_, fun id hid => ?_, fun c hvc => ?_⟩
  · exact (hc r hr c hcm hrc).imp_right
      (Or.imp (fun h => mem_rest h hcascade) fun h => pending_cons h hfind)
  · exact (hb id hid).imp_right fun h => pending_cons h hfind
  · refine ⟨(hv c hvc).1, (hv c hvc).2.imp_right (Or.imp (fun h => mem_rest h ?_) ?_)⟩
    · rintro rfl
      simp at hst
    · rintro ⟨ids, hm, hid⟩
      refine ⟨ids, mem_rest hm ?_, hid⟩
      rintro rfl
      simp at hst

theorem Progress.Sound.check (h : p.Sound db) (ht : p.todo = .check :: rest) :
    ({ p with todo := rest } : Progress).Sound db := by
  obtain ⟨ho, hc, hb, hv⟩ := h.tail ht (.inl rfl)
  refine ⟨ho, h.committed, hc, hb, hv, ?_, ?_, h.found⟩
  · exact h.credential.imp_left fun hm => mem_rest (ht ▸ hm) (by simp)
  · exact h.session.imp_left fun hm => mem_rest (ht ▸ hm) (by simp)

theorem Progress.Sound.lockAccountRow (h : p.Sound db) (ht : p.todo = .lockAccountRow :: rest) :
    ({ p with accountLocked := true, todo := rest } : Progress).Sound db := by
  obtain ⟨ho, hc, hb, hv⟩ := h.tail ht (.inr (.inl rfl))
  refine ⟨ho, h.committed, hc, hb, hv, ?_, ?_, h.found⟩
  · exact h.credential.imp_left fun hm => mem_rest (ht ▸ hm) (by simp)
  · exact h.session.imp_left fun hm => mem_rest (ht ▸ hm) (by simp)

/-- The verified credential is locked, and will be deleted. -/
theorem Progress.Sound.lockCredential {hash : Text} (h : p.Sound db)
    (ht : p.todo = .lockCredential id hash :: rest) (hid : id ∈ db.credentials.keys) :
    ({ p with verified := some id, todo := rest } : Progress).Sound db := by
  obtain ⟨ho, hc, hb, _⟩ := h.tail ht (.inr (.inr (.inl ⟨id, hash, rfl⟩)))
  have hordered := h.ordered
  rw [ht] at hordered
  refine ⟨ho, h.committed, hc, hb, ?_, ?_, ?_, h.found⟩
  · rintro c hc
    cases hc
    exact ⟨hid, .inr (.inl hordered.1)⟩
  · exact h.credential.imp_left fun hm => mem_rest (ht ▸ hm) (by simp)
  · exact h.session.imp_left fun hm => mem_rest (ht ▸ hm) (by simp)

theorem Progress.Sound.insertCredential (h : p.Sound db) (ht : p.todo = .insertCredential :: rest)
    (hu : ∀ c ∈ db.credentials.rows, c.id ∉ p.credentials → c.clashes p.credentialRow = false) :
    ({ p with newCredential := some p.credentialRow, todo := rest } : Progress).Sound db := by
  obtain ⟨ho, hc, hb, hv⟩ := h.tail ht (.inr (.inr (.inr (.inl rfl))))
  refine ⟨ho, h.committed, hc, hb, hv, .inr ⟨rfl, hu⟩, ?_, h.found⟩
  exact h.session.imp_left fun hm => mem_rest (ht ▸ hm) (by simp)

theorem Progress.Sound.createSession (h : p.Sound db) (ht : p.todo = .createSession :: rest)
    (now : Time) :
    ({ p with newSession := some (p.sessionInput.row now), todo := rest } : Progress).Sound db := by
  obtain ⟨ho, hc, hb, hv⟩ := h.tail ht (.inr (.inr (.inr (.inr rfl))))
  refine ⟨ho, h.committed, hc, hb, hv, ?_, .inr ⟨now, rfl⟩, h.found⟩
  exact h.credential.imp_left fun hm => mem_rest (ht ▸ hm) (by simp)

/-- The `DELETE` finds its credentials, among them the one that is verified. -/
theorem Progress.Sound.deleteCredentials {which : Selection} (h : p.Sound db)
    (ht : p.todo = .deleteCredentials which :: rest) {ids : List Text}
    (hids : ∀ c ∈ db.credentials.keys, c ∉ p.credentials → which = .byId c → c ∈ ids) :
    ({ p with todo := .lockCredentials ids :: rest } : Progress).Sound db := by
  obtain ⟨ho, hk, hc, hb, hv, hcr, hs, hf⟩ := h
  rw [ht] at ho hc hb hv hcr hs
  refine ⟨ho, hk, fun r hr c hcm hrc => ?_, fun id hid => ?_, fun c hvc => ?_, ?_, ?_, hf⟩
  · exact (hc r hr c hcm hrc).imp_right (Or.imp
      (fun h => List.mem_cons_of_mem _ (mem_rest h (by simp)))
      fun h => (pending_cons h (by simp)).cons)
  · exact (hb id hid).imp_right fun h => (pending_cons h (by simp)).cons
  · obtain ⟨hck, hcases⟩ := hv c hvc
    refine ⟨hck, ?_⟩
    by_cases hcp : c ∈ p.credentials
    · exact .inl hcp
    · rcases hcases with h | h | ⟨ids', hm, hid⟩
      · exact .inl h
      · rcases List.mem_cons.mp h with h | h
        · cases h
          exact .inr (.inr ⟨ids, List.mem_cons_self, hids c hck hcp rfl⟩)
        · exact .inr (.inl (List.mem_cons_of_mem _ h))
      · exact .inr (.inr ⟨ids', List.mem_cons_of_mem _ (mem_rest hm (by simp)), hid⟩)
  · exact hcr.imp_left fun h => List.mem_cons_of_mem _ (mem_rest h (by simp))
  · exact hs.imp_left fun h => List.mem_cons_of_mem _ (mem_rest h (by simp))

/-- Once the credentials are locked, the cascade has yet to find their sessions. -/
theorem Progress.Sound.lockCredentials {ids : List Text} (h : p.Sound db)
    (ht : p.todo = .lockCredentials ids :: rest) :
    ({ p with
      credentials := p.credentials ++ ids.filter db.credentials.keys.contains
      todo := .cascade :: rest } : Progress).Sound db := by
  obtain ⟨ho, hk, _, hb, hv, hcr, hs, hf⟩ := h
  rw [ht] at ho hb hv hcr hs
  refine ⟨ho, fun c hc => ?_, fun r hr c hcm hrc => .inr (.inl List.mem_cons_self), fun id hid => ?_,
    fun c hvc => ?_, ?_, ?_, hf⟩
  · rcases List.mem_append.mp hc with hc | hc
    · exact hk c hc
    · simpa using (List.mem_filter.mp hc).2
  · exact (hb id hid).imp_right fun h => (pending_cons h (by simp)).cons
  · obtain ⟨hck, hcases⟩ := hv c hvc
    refine ⟨hck, ?_⟩
    rcases hcases with h | h | ⟨ids', hm, hid⟩
    · exact .inl (List.mem_append_left _ h)
    · exact .inr (.inl (List.mem_cons_of_mem _ (mem_rest h (by simp))))
    · rcases List.mem_cons.mp hm with hm | hm
      · cases hm
        exact .inl (List.mem_append_right _ (List.mem_filter.mpr ⟨hid, by simpa using hck⟩))
      · exact .inr (.inr ⟨ids', List.mem_cons_of_mem _ hm, hid⟩)
  · rcases hcr with h | ⟨hn, hu⟩
    · exact .inl (List.mem_cons_of_mem _ (mem_rest h (by simp)))
    · exact .inr ⟨hn, fun c hc hcn => hu c hc fun h => hcn (List.mem_append_left _ h)⟩
  · exact hs.imp_left fun h => List.mem_cons_of_mem _ (mem_rest h (by simp))

/-- The cascade finds every session bound to a deleted credential. -/
theorem Progress.Sound.cascade {ids : List Text} (h : p.Sound db) (ht : p.todo = .cascade :: rest)
    (hids : ∀ r ∈ db.sessions.rows, ∀ c ∈ p.credentials, r.credentialId = some c → r.id ∈ ids) :
    ({ p with todo := .lockSessions ids :: rest } : Progress).Sound db := by
  obtain ⟨ho, hk, _, hb, hv, hcr, hs, hf⟩ := h
  rw [ht] at ho hb hv hcr hs
  refine ⟨ho, hk, fun r hr c hcm hrc => ?_, fun id hid => ?_, fun c hvc => ?_, ?_, ?_, hf⟩
  · exact .inr (.inr ⟨ids, List.mem_cons_self, hids r hr c hcm hrc⟩)
  · exact (hb id hid).imp_right fun h => (pending_cons h (by simp)).cons
  · refine ⟨(hv c hvc).1, (hv c hvc).2.imp_right (Or.imp (fun h => ?_) ?_)⟩
    · exact List.mem_cons_of_mem _ (mem_rest h (by simp))
    · rintro ⟨ids', hm, hid⟩
      exact ⟨ids', List.mem_cons_of_mem _ (mem_rest hm (by simp)), hid⟩
  · exact hcr.imp_left fun h => List.mem_cons_of_mem _ (mem_rest h (by simp))
  · exact hs.imp_left fun h => List.mem_cons_of_mem _ (mem_rest h (by simp))

/-- The `DELETE` of the account's sessions finds them. -/
theorem Progress.Sound.revokeAllUserSessions {ids : List Text} (h : p.Sound db)
    (ht : p.todo = .revokeAllUserSessions :: rest) (hf : ∀ id ∈ ids, id ∈ db.sessions.keys) :
    ({ p with before := ids, todo := .lockSessions ids :: rest } : Progress).Sound db := by
  obtain ⟨ho, hk, hc, _, hv, hcr, hs, _⟩ := h
  rw [ht] at ho hc hv hcr hs
  refine ⟨ho, hk, fun r hr c hcm hrc => ?_, fun id hid => ?_, fun c hvc => ?_, ?_, ?_, hf⟩
  · exact (hc r hr c hcm hrc).imp_right (Or.imp
      (fun h => List.mem_cons_of_mem _ (mem_rest h (by simp)))
      fun h => (pending_cons h (by simp)).cons)
  · exact .inr ⟨ids, List.mem_cons_self, hid⟩
  · refine ⟨(hv c hvc).1, (hv c hvc).2.imp_right (Or.imp (fun h => ?_) ?_)⟩
    · exact List.mem_cons_of_mem _ (mem_rest h (by simp))
    · rintro ⟨ids', hm, hid⟩
      exact ⟨ids', List.mem_cons_of_mem _ (mem_rest hm (by simp)), hid⟩
  · exact hcr.imp_left fun h => List.mem_cons_of_mem _ (mem_rest h (by simp))
  · exact hs.imp_left fun h => List.mem_cons_of_mem _ (mem_rest h (by simp))

theorem Progress.Sound.lockSessions {ids : List Text} (h : p.Sound db)
    (ht : p.todo = .lockSessions ids :: rest) :
    ({ p with sessions := p.sessions ++ ids, todo := rest } : Progress).Sound db := by
  obtain ⟨ho, hk, hc, hb, hv, hcr, hs, hf⟩ := h
  rw [ht] at ho hc hb hv hcr hs
  have hpending : ∀ id, Pending id (.lockSessions ids :: rest) →
      id ∈ p.sessions ++ ids ∨ Pending id rest := by
    rintro id ⟨ids', hm, hid⟩
    rcases List.mem_cons.mp hm with hm | hm
    · cases hm
      exact .inl (List.mem_append_right _ hid)
    · exact .inr ⟨ids', hm, hid⟩
  refine ⟨ho, hk, fun r hr c hcm hrc => ?_, fun id hid => ?_, fun c hvc => ?_, ?_, ?_, hf⟩
  · rcases hc r hr c hcm hrc with h | h | h
    · exact .inl (List.mem_append_left _ h)
    · exact .inr (.inl (mem_rest h (by simp)))
    · exact (hpending r.id h).imp_right .inr
  · rcases hb id hid with h | h
    · exact .inl (List.mem_append_left _ h)
    · exact hpending id h
  · refine ⟨(hv c hvc).1, (hv c hvc).2.imp_right (Or.imp (fun h => mem_rest h (by simp)) ?_)⟩
    rintro ⟨ids', hm, hid⟩
    exact ⟨ids', mem_rest hm (by simp), hid⟩
  · exact hcr.imp_left fun h => mem_rest h (by simp)
  · exact hs.imp_left fun h => mem_rest h (by simp)

end Statements

/-! ## What one statement does -/

/-- The ids a phase has minted and not committed. -/
def Phase.ids : Phase → List Text
  | .loginVerified input _ => [input.id]
  | .loginInserted row _ => [row.id]
  | .changeVerified _ _ ids _ _ | .resetFound _ ids => [ids.credentialId, ids.sessionId]
  | .running p => [p.ids.credentialId, p.ids.sessionId]
  | .requested _ | .updated .. | .ended => []

/-- Everything one statement of the call `t`, in the phase `p`, can do. -/
inductive Next (s : Store Tables Phase) (t : ℕ) (p : Phase) : Store Tables Phase → Prop
  | wait : Next s t p s
  | goOn (q : Phase) (hids : ∀ id ∈ q.ids, id ∈ p.ids) (hf : fact p s.db → fact q s.db)
    (hl : (∀ l ∈ locks q, l ∈ locks p) ∨ s.grants locks t (locks q) = true) : Next s t p (s.put t q)
  | commit (hp : ∀ q, p = .running q → q.todo = []) : Next s t p (s.commit writes t p .ended)

section Next

variable {s : Store Tables Phase} {t : ℕ} {ok : Bool} {now : Time} {p : Progress}

theorem Next.enter {q r : Phase} (hids : ∀ id ∈ r.ids, id ∈ q.ids) (hf : fact q s.db → fact r s.db) :
    Next s t q (s.enter locks t r) := by
  rcases enter_cases locks s t r with he | ⟨hg, he⟩
  · rw [he]
    exact .wait
  · rw [he]
    exact .goOn r hids hf (.inr hg)

theorem Next.ended {q : Phase} : Next s t q (s.put t .ended) :=
  .goOn .ended (fun _ h => absurd h List.not_mem_nil) (fun _ => trivial)
    (.inl fun _ h => absurd h List.not_mem_nil)

/-- A statement that takes no lock. -/
theorem Next.same {q : Progress} (hids : q.ids = p.ids) (hheld : q.held = p.held)
    (hf : p.Sound s.db → q.Sound s.db) : Next s t (.running p) (s.put t (.running q)) := by
  refine .goOn _ (fun id h => ?_) hf (.inl fun l h => ?_)
  · simpa only [Phase.ids, hids] using h
  · simpa only [locks, hheld] using h

theorem next_execute : Next s t (.running p) (execute s t ok now p) := by
  have hids : ∀ {q : Progress}, q.ids = p.ids → ∀ id ∈ Phase.ids (.running q),
      id ∈ Phase.ids (.running p) := by
    intro q hq id h
    simpa only [Phase.ids, hq] using h
  unfold execute
  split
  case h_1 ht =>
    refine .commit fun q hq => ?_
    cases hq
    exact ht
  case h_2 ht =>
    cases ok with
    | false => exact Next.ended
    | true => exact Next.same rfl rfl fun h => h.check ht
  case h_3 ht => exact Next.enter (hids rfl) fun h => h.lockAccountRow ht
  case h_4 id hash rest ht =>
    split_ifs with hc
    · refine Next.enter (hids rfl) fun h => h.lockCredential ht ?_
      obtain ⟨c, hf, _⟩ := (Option.any_eq_true _ _).mp hc
      exact Table.mem_keys_of_find? hf
    · exact Next.ended
  case h_5 which rest ht =>
    refine Next.same rfl rfl fun h => h.deleteCredentials ht fun c hc hcn hw => ?_
    obtain ⟨row, hrow, rfl⟩ := List.mem_map.mp hc
    subst hw
    refine List.mem_map.mpr ⟨row, List.mem_filter.mpr ⟨hrow, ?_⟩, rfl⟩
    simpa [Selection.selects] using hcn
  case h_6 ht => exact Next.enter (hids rfl) fun h => h.lockCredentials ht
  case h_7 ht =>
    refine Next.same rfl rfl fun h => h.cascade ht fun r hr c hc hrc => ?_
    refine List.mem_map.mpr ⟨r, List.mem_filter.mpr ⟨hr, ?_⟩, rfl⟩
    rw [hrc]
    simpa using hc
  case h_8 ht =>
    refine Next.same rfl rfl fun h => h.revokeAllUserSessions ht fun id hid => ?_
    exact (List.filter_sublist.map _).subset hid
  case h_9 ht => exact Next.enter (hids rfl) fun h => h.lockSessions ht
  case h_10 ht =>
    split_ifs with hc
    · exact Next.ended
    · refine Next.same rfl rfl fun h => h.insertCredential ht fun c hcm hcn => ?_
      by_contra hclash
      refine hc (List.any_eq_true.mpr ⟨c, hcm, ?_⟩)
      simpa [hcn] using hclash
  case h_11 ht => exact Next.same rfl rfl fun h => h.createSession ht now

theorem next_nextStatement {q : Phase} : Next s t q (nextStatement s t ok now q) := by
  cases q with
  | loginVerified input credentialId =>
    unfold nextStatement
    dsimp only
    split_ifs with hc
    · refine Next.enter (fun id h => h) fun _ => ⟨rfl, ?_⟩
      rw [Bool.and_eq_true] at hc
      simpa using hc.2
    · exact Next.ended
  | loginInserted row credentialId => exact .commit fun q hq => by cases hq
  | requested u =>
    unfold nextStatement
    dsimp only
    split_ifs
    · exact Next.enter (fun id h => h) fun _ => trivial
    · exact Next.ended
  | updated u now => exact .commit fun q hq => by cases hq
  | changeVerified userId mfa ids credentialId verifiedHash =>
    unfold nextStatement
    dsimp only
    split_ifs
    · exact Next.enter (fun id h => h) fun _ => sound_changePassword ..
    · exact Next.ended
  | resetFound userId ids =>
    unfold nextStatement
    dsimp only
    split_ifs
    · exact Next.enter (fun id h => h) fun _ => sound_completePasswordReset ..
    · exact Next.ended
  | running p => exact next_execute
  | ended => exact .wait

end Next

/-! ## Commits -/

/-- Every id the tables know, or that a replacement has deleted. -/
def Tables.ids (db : Tables) : List Text :=
  db.credentials.keys ++ db.sessions.keys ++ db.log.flatMap fun e => e.credentials ++ e.before

/-- What the committed tables keep to. -/
structure Kept (db : Tables) : Prop where
  bound : ∀ r ∈ db.sessions.rows, ∀ c, r.credentialId = some c → c ∈ db.credentials.keys
  replaced : ∀ e ∈ db.log, ∀ c ∈ e.credentials, c ∉ db.credentials.keys
  before : ∀ e ∈ db.log, ∀ id ∈ e.before, id ∉ db.sessions.keys
  apart : db.log.Pairwise fun e e' => ∀ c ∈ e.credentials, c ∉ e'.credentials
  verified : ∀ e ∈ db.log, ∀ c, e.verified = some c → c ∈ e.credentials

section Commits

variable {db : Tables} {p : Progress} {id : Text} {row r : SessionRow}

theorem mem_ids : id ∈ db.ids ↔ id ∈ db.credentials.keys ∨ id ∈ db.sessions.keys ∨
    ∃ e ∈ db.log, id ∈ e.credentials ∨ id ∈ e.before := by
  simp [Tables.ids]

theorem mem_sessions_insert {sessions : Table SessionRow.id} (hid : row.id ∉ sessions.keys) :
    r ∈ (insertSession row sessions).rows ↔ r ∈ sessions.rows ∨ r = row := by
  rw [show (insertSession row sessions).rows = sessions.rows ++ [row] from Table.insert_rows hid]
  simp

theorem mem_keys_insertSession {sessions : Table SessionRow.id} :
    id ∈ (insertSession row sessions).keys ↔ id = row.id ∨ id ∈ sessions.keys :=
  Table.mem_keys_insert

theorem SessionUpdate.rewrite_credentialId (u : SessionUpdate) (now : Time) (r : SessionRow) :
    (u.rewrite now r).credentialId = r.credentialId := by
  unfold SessionUpdate.rewrite
  split_ifs
  · cases u <;> rfl
  · rfl

/-- A finished replacement has its new credential and session, and every deleted row locked. -/
theorem Progress.Sound.done (h : p.Sound db) (ht : p.todo = []) :
    (∀ r ∈ db.sessions.rows, ∀ c ∈ p.credentials, r.credentialId = some c → r.id ∈ p.sessions) ∧
      (∀ id ∈ p.before, id ∈ p.sessions) ∧
      (∀ c, p.verified = some c → c ∈ p.credentials) ∧
      p.newCredential = some p.credentialRow ∧
      (∀ c ∈ db.credentials.rows, c.id ∉ p.credentials → c.clashes p.credentialRow = false) ∧
      ∃ now, p.newSession = some (p.sessionInput.row now) := by
  obtain ⟨_, _, hc, hb, hv, hcr, hs, _⟩ := h
  simp only [ht, Pending, List.not_mem_nil, false_and, exists_false, or_false, false_or]
    at hc hb hv hcr hs
  exact ⟨hc, hb, fun c h => (hv c h).2, hcr.1, hcr.2, hs⟩

/-- The tables a finished replacement commits. -/
theorem Progress.Sound.write (h : p.Sound db) (ht : p.todo = []) : ∃ now,
    (p.write db).credentials = Passwords.insertCredential p.credentialRow
      (db.credentials.deleteWhere fun c => p.credentials.contains c.id) ∧
    (p.write db).sessions = insertSession (p.sessionInput.row now)
      (db.sessions.deleteWhere fun r => p.sessions.contains r.id) ∧
    (p.write db).log = db.log ++ [p.entry] := by
  obtain ⟨_, _, _, hcr, _, now, hs⟩ := h.done ht
  refine ⟨now, ?_, ?_, rfl⟩
  · unfold Progress.write
    rw [hcr]
    rfl
  · unfold Progress.write
    rw [hs]
    rfl

theorem mem_keys_kept {credentials : Table CredentialRow.id} {gone : List Text} :
    id ∈ (credentials.deleteWhere fun c => gone.contains c.id).keys ↔
      id ∈ credentials.keys ∧ id ∉ gone := by
  constructor
  · intro h
    obtain ⟨c, hc, rfl⟩ := List.mem_map.mp h
    obtain ⟨hc, hn⟩ := Table.mem_deleteWhere.mp hc
    exact ⟨List.mem_map_of_mem hc, by simpa using hn⟩
  · rintro ⟨h, hn⟩
    obtain ⟨c, hc, rfl⟩ := List.mem_map.mp h
    exact List.mem_map_of_mem (Table.mem_deleteWhere.mpr ⟨hc, by simpa using hn⟩)

theorem mem_keys_sessions_kept {sessions : Table SessionRow.id} {gone : List Text}
    (h : id ∈ (sessions.deleteWhere fun r => gone.contains r.id).keys) :
    id ∈ sessions.keys ∧ id ∉ gone := by
  obtain ⟨r, hr, rfl⟩ := List.mem_map.mp h
  obtain ⟨hr, hn⟩ := Table.mem_deleteWhere.mp hr
  exact ⟨List.mem_map_of_mem hr, by simpa using hn⟩

theorem mem_keys_insertCredential {credentials : Table CredentialRow.id} {c : CredentialRow} :
    id ∈ (insertCredential c credentials).keys ↔ id = c.id ∨ id ∈ credentials.keys :=
  Table.mem_keys_insert

theorem Kept.login {c : Text} (h : Kept db) (hc : row.credentialId = some c)
    (hk : c ∈ db.credentials.keys) (hid : row.id ∉ db.ids) :
    Kept { db with sessions := insertSession row db.sessions } := by
  have hnew : row.id ∉ db.sessions.keys := fun hm => hid (mem_ids.mpr (.inr (.inl hm)))
  refine ⟨fun r hr c' hc' => ?_, h.replaced, fun e he id hb hm => ?_, h.apart, h.verified⟩
  · rcases (mem_sessions_insert hnew).mp hr with hr | rfl
    · exact h.bound r hr c' hc'
    · rw [hc, Option.some.injEq] at hc'
      exact hc' ▸ hk
  · rcases mem_keys_insertSession.mp hm with rfl | hm
    · exact hid (mem_ids.mpr (.inr (.inr ⟨e, he, .inr hb⟩)))
    · exact h.before e he id hb hm

theorem Kept.update (h : Kept db) (u : SessionUpdate) (now : Time) :
    Kept { db with sessions := db.sessions.updateAll (u.rewrite now) (u.rewrite_id now) } := by
  refine ⟨fun r hr c hc => ?_, h.replaced, fun e he id hb hm => ?_, h.apart, h.verified⟩
  · obtain ⟨r₀, hr₀, rfl⟩ := List.mem_map.mp hr
    rw [u.rewrite_credentialId] at hc
    exact h.bound r₀ hr₀ c hc
  · rw [Table.keys_updateAll] at hm
    exact h.before e he id hb hm

/-- **A replacement.** What is left of the sessions is bound to what is left of the credentials. -/
theorem Kept.replace (h : Kept db) (hs : p.Sound db) (ht : p.todo = [])
    (hc : p.ids.credentialId ∉ db.ids) (hi : p.ids.sessionId ∉ db.ids) : Kept (p.write db) := by
  obtain ⟨hcov, hbef, hver, _, _, _⟩ := hs.done ht
  obtain ⟨now, hcred, hsess, hlog⟩ := hs.write ht
  have hnew : (p.sessionInput.row now).id ∉
      (db.sessions.deleteWhere fun r => p.sessions.contains r.id).keys :=
    fun hm => hi (mem_ids.mpr (.inr (.inl (mem_keys_sessions_kept hm).1)))
  have hlogm : ∀ e ∈ (p.write db).log, e ∈ db.log ∨ e = p.entry := by
    intro e he
    rw [hlog] at he
    simpa using he
  constructor
  · intro r hr c hrc
    rw [hsess] at hr
    rw [hcred, mem_keys_insertCredential, mem_keys_kept]
    rcases (mem_sessions_insert hnew).mp hr with hr | rfl
    · obtain ⟨hr, hn⟩ := Table.mem_deleteWhere.mp hr
      refine .inr ⟨h.bound r hr c hrc, fun hcm => ?_⟩
      have := hcov r hr c hcm hrc
      simp [this] at hn
    · exact .inl (Option.some.inj hrc).symm
  · intro e he c hce hm
    rw [hcred, mem_keys_insertCredential, mem_keys_kept] at hm
    rcases hlogm e he with he | rfl
    · rcases hm with rfl | ⟨hm, _⟩
      · exact hc (mem_ids.mpr (.inr (.inr ⟨e, he, .inl hce⟩)))
      · exact h.replaced e he c hce hm
    · rcases hm with rfl | ⟨_, hn⟩
      · exact hc (mem_ids.mpr (.inl (hs.committed _ hce)))
      · exact hn hce
  · intro e he id hb hm
    rw [hsess, mem_keys_insertSession] at hm
    rcases hlogm e he with he | rfl
    · rcases hm with rfl | hm
      · exact hi (mem_ids.mpr (.inr (.inr ⟨e, he, .inr hb⟩)))
      · exact h.before e he id hb (mem_keys_sessions_kept hm).1
    · rcases hm with rfl | hm
      · exact hi (mem_ids.mpr (.inr (.inl (hs.found _ hb))))
      · exact (mem_keys_sessions_kept hm).2 (hbef id hb)
  · rw [hlog, List.pairwise_append]
    refine ⟨h.apart, List.pairwise_singleton _ _, fun e he e' he' c hce hce' => ?_⟩
    rw [List.mem_singleton.mp he'] at hce'
    exact h.replaced e he c hce (hs.committed c hce')
  · intro e he c hv
    rcases hlogm e he with he | rfl
    · exact h.verified e he c hv
    · exact hver c hv

end Commits

/-! ## What the others rely on -/

section Others

variable {db : Tables} {p : Progress} {row : SessionRow} {s : Store Tables Phase} {t u : ℕ}

theorem Progress.Sound.after_login {c : Text} (h : p.Sound db) (hc : row.credentialId = some c)
    (hn : c ∉ p.credentials) (hid : row.id ∉ db.sessions.keys) :
    p.Sound { db with sessions := insertSession row db.sessions } := by
  refine { h with covered := fun r hr c' hcm hrc => ?_, found := fun id hb => ?_ }
  · rcases (mem_sessions_insert hid).mp hr with hr | rfl
    · exact h.covered r hr c' hcm hrc
    · rw [hc, Option.some.injEq] at hrc
      exact absurd (hrc ▸ hcm) hn
  · exact mem_keys_insertSession.mpr (.inr (h.found id hb))

theorem Progress.Sound.after_update (h : p.Sound db) (u : SessionUpdate) (now : Time) :
    p.Sound { db with sessions := db.sessions.updateAll (u.rewrite now) (u.rewrite_id now) } := by
  refine { h with covered := fun r hr c hcm hrc => ?_, found := fun id hb => ?_ }
  · obtain ⟨r₀, hr₀, rfl⟩ := List.mem_map.mp hr
    rw [u.rewrite_credentialId] at hrc
    rw [u.rewrite_id]
    exact h.covered r₀ hr₀ c hcm hrc
  · rw [Table.keys_updateAll]
    exact h.found id hb

theorem mem_locks_credential {c : Text} (hc : c ∈ p.credentials) :
    (RowKey.credential c, Mode.update) ∈ locks (.running p) := by
  refine List.mem_map.mpr ⟨_, ?_, rfl⟩
  simp [Progress.held, hc]

/-- The owner lock lets one replacement run at a time. -/
theorem running_unique (he : s.Exclusive locks) {q : Progress} (hp : s.phase? t = some (.running p))
    (hq : s.phase? u = some (.running q)) : t = u :=
  he.eq_of_mem hp hq (k := .ownerLock) (m := .update) (n := .update)
    (List.mem_map.mpr ⟨_, by simp [Progress.held], rfl⟩)
    (List.mem_map.mpr ⟨_, by simp [Progress.held], rfl⟩) rfl

/-- A login that is inserted and a replacement are about different credentials. -/
theorem notMem_credentials (he : s.Exclusive locks) {c : Text} (hne : t ≠ u)
    (hp : s.phase? t = some (.loginInserted row c)) (hq : s.phase? u = some (.running p)) :
    c ∉ p.credentials := by
  intro hc
  refine hne (he.eq_of_mem hp hq (k := .credential c) (m := .keyShare) (n := .update) ?_
    (mem_locks_credential hc) rfl)
  simp [locks]

theorem facts_commit {q : Phase} (hf : s.Facts fact) (he : s.Exclusive locks)
    (hq : s.phase? t = some q) (hids : ∀ id ∈ q.ids, id ∉ s.db.ids)
    (hdone : ∀ p, q = .running p → p.todo = []) : (s.commit writes t q .ended).Facts fact := by
  refine hf.commit_others (fun u r hr hne hfact => ?_) trivial
  cases q with
  | loginInserted row c =>
    cases r with
    | running p =>
      refine hfact.after_login (hf t _ hq).1 (notMem_credentials he (Ne.symm hne) hq hr) fun hm => ?_
      exact hids row.id (by simp [Phase.ids]) (mem_ids.mpr (.inr (.inl hm)))
    | loginInserted row' c' => exact hfact
    | _ => trivial
  | updated u' now =>
    cases r with
    | running p => exact hfact.after_update u' now
    | loginInserted row' c' => exact hfact
    | _ => trivial
  | running p =>
    cases r with
    | running p' => exact absurd (running_unique he hr hq) hne
    | loginInserted row c =>
      refine ⟨hfact.1, ?_⟩
      obtain ⟨now, hcred, _, _⟩ := (hf t _ hq).write (hdone p rfl)
      show c ∈ (p.write s.db).credentials.keys
      rw [hcred, mem_keys_insertCredential, mem_keys_kept]
      exact .inr ⟨hfact.2, notMem_credentials he hne hr hq⟩
    | _ => trivial
  | loginVerified input c => exact hfact
  | requested u' => exact hfact
  | changeVerified userId mfa ids c h => exact hfact
  | resetFound userId ids => exact hfact
  | ended => exact hfact

/-- What a commit adds to the ids. -/
theorem ids_commit {q : Phase} (hf : fact q db) (hdone : ∀ p, q = .running p → p.todo = []) {id : Text}
    (h : id ∈ (writes q db).ids) : id ∈ db.ids ∨ id ∈ q.ids := by
  cases q with
  | loginInserted row c =>
    rcases mem_ids.mp h with h | h | h
    · exact .inl (mem_ids.mpr (.inl h))
    · rcases mem_keys_insertSession.mp h with rfl | h
      · exact .inr (by simp [Phase.ids])
      · exact .inl (mem_ids.mpr (.inr (.inl h)))
    · exact .inl (mem_ids.mpr (.inr (.inr h)))
  | updated u now =>
    refine .inl ?_
    rw [mem_ids] at h ⊢
    refine h.imp_right (Or.imp_left fun h => ?_)
    rw [← Table.keys_updateAll db.sessions (u.rewrite now) (u.rewrite_id now)]
    exact h
  | running p =>
    obtain ⟨now, hcred, hsess, hlog⟩ := hf.write (hdone p rfl)
    rw [show writes (.running p) db = p.write db from rfl, mem_ids, hcred, hsess, hlog] at h
    rcases h with h | h | ⟨e, he, h⟩
    · rcases mem_keys_insertCredential.mp h with rfl | h
      · exact .inr (by simp [Phase.ids, Progress.credentialRow])
      · exact .inl (mem_ids.mpr (.inl (mem_keys_kept.mp h).1))
    · rcases mem_keys_insertSession.mp h with rfl | h
      · exact .inr (by simp [Phase.ids, NewSession.row, Progress.sessionInput])
      · exact .inl (mem_ids.mpr (.inr (.inl (mem_keys_sessions_kept h).1)))
    · rcases List.mem_append.mp he with he | he
      · exact .inl (mem_ids.mpr (.inr (.inr ⟨e, he, h⟩)))
      · rw [List.mem_singleton.mp he] at h
        rcases h with h | h
        · exact .inl (mem_ids.mpr (.inl (hf.committed id h)))
        · exact .inl (mem_ids.mpr (.inr (.inl (hf.found id h))))
  | loginVerified input c => exact .inl h
  | requested u' => exact .inl h
  | changeVerified userId mfa ids c h => exact .inl h
  | resetFound userId ids => exact .inl h
  | ended => exact .inl h

theorem kept_commit {q : Phase} (h : Kept db) (hf : fact q db) (hids : ∀ id ∈ q.ids, id ∉ db.ids)
    (hdone : ∀ p, q = .running p → p.todo = []) : Kept (writes q db) := by
  cases q with
  | loginInserted row c => exact h.login hf.1 hf.2 (hids row.id (by simp [Phase.ids]))
  | updated u now => exact h.update u now
  | running p =>
    exact h.replace hf (hdone p rfl) (hids _ (by simp [Phase.ids])) (hids _ (by simp [Phase.ids]))
  | loginVerified input c => exact h
  | requested u' => exact h
  | changeVerified userId mfa ids c h' => exact h
  | resetFound userId ids => exact h
  | ended => exact h

end Others

/-! ## Runs -/

/-- The invariant of a run. -/
structure Inv (s : State) : Prop where
  exclusive : s.Exclusive locks
  facts : s.Facts fact
  kept : Kept s.db
  known : ∀ id ∈ s.db.ids, id ∈ s.minted
  taken : ∀ t p, s.phase? t = some p → ∀ id ∈ p.ids, id ∈ s.minted ∧ id ∉ s.db.ids
  apart : ∀ t u p q, s.phase? t = some p → s.phase? u = some q → t ≠ u → ∀ id ∈ p.ids, id ∉ q.ids

section Runs

variable {s : State} {t : ℕ} {p q : Phase}

theorem inv_init (seed : Seed) : Inv (init seed) where
  exclusive := exclusive_init _
  facts := facts_init _
  kept := ⟨seed.bound, fun _ h => absurd h List.not_mem_nil, fun _ h => absurd h List.not_mem_nil,
    List.Pairwise.nil, fun _ h => absurd h List.not_mem_nil⟩
  known := by
    intro id h
    simpa [mem_ids, init, Store.init] using h
  taken := fun _ _ h => by cases h
  apart := fun _ _ _ _ h => by cases h

/-- A call that goes on keeps its ids. -/
theorem Inv.put (h : Inv s) (hp : s.phase? t = some p) (hids : ∀ id ∈ q.ids, id ∈ p.ids)
    (hf : fact q s.db) (hl : (s.put t q).Exclusive locks) :
    Inv { s with toStore := s.put t q } := by
  have hsame : ∀ u r, (s.put t q).phase? u = some r →
      ∃ r', s.phase? u = some r' ∧ ∀ id ∈ r.ids, id ∈ r'.ids := by
    intro u r hr
    rw [phase?_put] at hr
    split_ifs at hr with hu
    · cases hr
      exact ⟨p, hu ▸ hp, hids⟩
    · exact ⟨r, hr, fun _ h => h⟩
  refine ⟨hl, h.facts.put hf, h.kept, h.known, fun u r hr id hid => ?_,
    fun u v r r' hr hr' hne id hid hid' => ?_⟩
  · obtain ⟨r', hr', hsub⟩ := hsame u r hr
    exact h.taken u r' hr' id (hsub id hid)
  · obtain ⟨r₀, hr₀, hsub⟩ := hsame u r hr
    obtain ⟨r₁, hr₁, hsub'⟩ := hsame v r' hr'
    exact h.apart u v r₀ r₁ hr₀ hr₁ hne id (hsub id hid) (hsub' id hid')

theorem Inv.commit (h : Inv s) (hp : s.phase? t = some p)
    (hdone : ∀ q, p = .running q → q.todo = []) :
    Inv { s with toStore := s.commit writes t p .ended } := by
  have hf := h.facts t p hp
  have hids : ∀ id ∈ p.ids, id ∉ s.db.ids := fun id hid => (h.taken t p hp id hid).2
  have hother : ∀ u r, (s.commit writes t p .ended).phase? u = some r → r.ids ≠ [] →
      u ≠ t ∧ s.phase? u = some r := by
    intro u r hr hne
    rw [phase?_commit] at hr
    split_ifs at hr with hu
    · cases hr
      exact absurd rfl hne
    · exact ⟨hu, hr⟩
  refine ⟨h.exclusive.commit rfl, facts_commit h.facts h.exclusive hp hids hdone,
    kept_commit h.kept hf hids hdone, fun id hid => ?_, fun u r hr id hid => ?_,
    fun u v r r' hr hr' hne id hid hid' => ?_⟩
  · rcases ids_commit hf hdone hid with hid | hid
    · exact h.known id hid
    · exact (h.taken t p hp id hid).1
  · obtain ⟨hu, hr⟩ := hother u r hr (List.ne_nil_of_mem hid)
    obtain ⟨hm, hn⟩ := h.taken u r hr id hid
    refine ⟨hm, fun hid' => ?_⟩
    rcases ids_commit hf hdone hid' with hid' | hid'
    · exact hn hid'
    · exact h.apart u t r p hr hp hu id hid hid'
  · obtain ⟨_, hr⟩ := hother u r hr (List.ne_nil_of_mem hid)
    obtain ⟨_, hr'⟩ := hother v r' hr' (List.ne_nil_of_mem hid')
    exact h.apart u v r r' hr hr' hne id hid hid'

theorem Inv.next {s' : Store Tables Phase} (h : Inv s) (hp : s.phase? t = some p)
    (hn : Next s.toStore t p s') : Inv { s with toStore := s' } := by
  cases hn with
  | wait => exact h
  | goOn q hids hf hl =>
    refine h.put hp hids (hf (h.facts t p hp)) ?_
    rcases hl with hl | hl
    · exact h.exclusive.put_held hp hl
    · exact h.exclusive.put hl
  | commit hdone => exact h.commit hp hdone

theorem ids_firstPhase (db : Tables) (call : Call) : ∀ id ∈ (firstPhase db call).ids, id ∈ call.ids := by
  intro id h
  cases call with
  | login input =>
    rw [firstPhase] at h
    cases hc : passwordCredentialOf db input.userId <;> rw [hc] at h
    · cases h
    · exact h
  | update u => cases h
  | changePassword userId mfa ids =>
    rw [firstPhase] at h
    cases hc : passwordCredentialOf db userId with
    | none =>
      rw [hc] at h
      cases h
    | some c =>
      rw [hc, Option.elim_some] at h
      cases hs : c.secretHash <;> rw [hs] at h
      · cases h
      · exact h
  | completePasswordReset userId ids => exact h

theorem firstPhase_free (db : Tables) (call : Call) :
    locks (firstPhase db call) = [] ∧ fact (firstPhase db call) db := by
  cases call with
  | login input =>
    rw [firstPhase]
    cases passwordCredentialOf db input.userId <;> exact ⟨rfl, trivial⟩
  | update u => exact ⟨rfl, trivial⟩
  | changePassword userId mfa ids =>
    rw [firstPhase]
    cases passwordCredentialOf db userId with
    | none => exact ⟨rfl, trivial⟩
    | some c =>
      rw [Option.elim_some]
      cases c.secretHash <;> exact ⟨rfl, trivial⟩
  | completePasswordReset userId ids => exact ⟨rfl, trivial⟩

/-- A call that starts mints ids that nobody has. -/
theorem Inv.start (h : Inv s) (t : ℕ) (call : Call) : Inv (step s (.start t call)) := by
  unfold step
  dsimp only
  split_ifs with hold
  · exact h
  · simp only [Bool.or_eq_true, List.any_eq_true, not_or, not_exists, not_and] at hold
    obtain ⟨_, hnew⟩ := hold
    have hnew : ∀ id ∈ (firstPhase s.db call).ids, id ∉ s.minted := fun id hid hm =>
      hnew id (ids_firstPhase s.db call id hid) (by simpa using hm)
    obtain ⟨hl, hf⟩ := firstPhase_free s.db call
    have hphase : ∀ u r, (s.put t (firstPhase s.db call)).phase? u = some r →
        (u = t ∧ r = firstPhase s.db call) ∨ (u ≠ t ∧ s.phase? u = some r) := by
      intro u r hr
      rw [phase?_put] at hr
      split_ifs at hr with hu
      · cases hr
        exact .inl ⟨hu, rfl⟩
      · exact .inr ⟨hu, hr⟩
    refine ⟨h.exclusive.put_free hl, h.facts.put hf, h.kept,
      fun id hid => List.mem_append_right _ (h.known id hid), fun u r hr id hid => ?_,
      fun u v r r' hr hr' hne id hid hid' => ?_⟩
    · rcases hphase u r hr with ⟨_, rfl⟩ | ⟨_, hr⟩
      · exact ⟨List.mem_append_left _ (ids_firstPhase _ _ id hid),
          fun hm => hnew id hid (h.known id hm)⟩
      · obtain ⟨hm, hn⟩ := h.taken u r hr id hid
        exact ⟨List.mem_append_right _ hm, hn⟩
    · rcases hphase u r hr with ⟨rfl, rfl⟩ | ⟨_, hold⟩
      · rcases hphase v r' hr' with ⟨rfl, rfl⟩ | ⟨_, hold'⟩
        · exact hne rfl
        · exact hnew id hid (h.taken v r' hold' id hid').1
      · rcases hphase v r' hr' with ⟨rfl, rfl⟩ | ⟨_, hold'⟩
        · exact hnew id hid' (h.taken u r hold id hid).1
        · exact h.apart u v r r' hold hold' hne id hid hid'

theorem Inv.step (h : Inv s) (a : Action) : Inv (step s a) := by
  cases a with
  | start t call => exact h.start t call
  | next t ok now =>
    unfold Passwords.step
    dsimp only
    cases hp : s.phase? t with
    | none => exact h
    | some p => exact h.next hp next_nextStatement
  | fail t =>
    unfold Passwords.step
    dsimp only
    cases hp : s.phase? t with
    | none => exact h
    | some p => exact h.next hp Next.ended

theorem inv_run (seed : Seed) (as : List Action) : Inv (run step (init seed) as) :=
  foldl_invariant Inv (fun _ a h => h.step a) (inv_init seed) as

/-! ## What a replacement leaves -/

/-- The sessions bound to a credential. -/
def sessionsBoundTo (db : Tables) (credentialId : Text) : List Text :=
  (db.sessions.rows.filter (·.credentialId == some credentialId)).map (·.id)

/-- The account's password credentials. -/
def passwordsOf (db : Tables) (userId : Text) : List Text :=
  (db.credentials.rows.filter fun c => c.userId == userId && c.type == .password).map (·.id)

/-- Only a replacement that commits adds to the log. -/
theorem log_step (s : State) (a : Action) : (step s a).db.log = s.db.log ∨
    ∃ t p, s.phase? t = some (.running p) ∧ p.todo = [] ∧ (step s a).db = p.write s.db := by
  cases a with
  | start t call =>
    unfold step
    dsimp only
    split_ifs <;> exact .inl rfl
  | fail t =>
    unfold step
    dsimp only
    split_ifs <;> exact .inl rfl
  | next t ok now =>
    unfold step
    dsimp only
    cases hp : s.phase? t with
    | none => exact .inl rfl
    | some p =>
      rw [Option.elim_some]
      generalize hs' : nextStatement s.toStore t ok now p = s'
      have hn : Next s.toStore t p s' := hs' ▸ next_nextStatement
      cases hn with
      | wait => exact .inl rfl
      | goOn q => exact .inl rfl
      | commit hdone =>
        cases p with
        | running p => exact .inr ⟨t, p, hp, hdone p rfl, rfl⟩
        | _ => exact .inl rfl

theorem log_prefix (s : State) (as : List Action) : s.db.log <+: (run step s as).db.log := by
  induction as generalizing s with
  | nil => exact List.prefix_rfl
  | cons a as ih =>
    refine List.IsPrefix.trans ?_ (ih (step s a))
    rcases log_step s a with h | ⟨t, p, _, _, h⟩
    · rw [h]
    · rw [h]
      exact List.prefix_append _ _

theorem sessionsBoundTo_write {p : Progress} {db : Tables} (hk : Kept db) (hs : p.Sound db)
    (ht : p.todo = []) (hc : p.ids.credentialId ∉ db.ids) (hi : p.ids.sessionId ∉ db.ids) :
    sessionsBoundTo (p.write db) p.ids.credentialId = [p.ids.sessionId] := by
  obtain ⟨now, _, hsess, _⟩ := hs.write ht
  have hnew : (p.sessionInput.row now).id ∉
      (db.sessions.deleteWhere fun r => p.sessions.contains r.id).keys :=
    fun hm => hi (mem_ids.mpr (.inr (.inl (mem_keys_sessions_kept hm).1)))
  -- nobody could bind a session to the credential before it was committed
  have hnone : (db.sessions.deleteWhere fun r => p.sessions.contains r.id).rows.filter
      (·.credentialId == some p.ids.credentialId) = [] := by
    refine List.filter_eq_nil_iff.mpr fun r hr hrc => hc (mem_ids.mpr (.inl ?_))
    exact hk.bound r (Table.mem_deleteWhere.mp hr).1 _ (by simpa using hrc)
  unfold sessionsBoundTo
  rw [hsess, show (insertSession (p.sessionInput.row now) _).rows = _ ++ [_] from
    Table.insert_rows hnew, List.filter_append, hnone]
  simp [NewSession.row, Progress.sessionInput]

theorem clashes_password {c row : CredentialRow} (hu : c.userId = row.userId)
    (ht : c.type = .password) (ht' : row.type = .password) : c.clashes row = true := by
  simp [CredentialRow.clashes, hu, ht, ht']

theorem passwordsOf_write {p : Progress} {db : Tables} (hs : p.Sound db) (ht : p.todo = [])
    (hc : p.ids.credentialId ∉ db.ids) :
    passwordsOf (p.write db) p.userId = [p.ids.credentialId] ∧
      ∀ c ∈ passwordsOf db p.userId, c ∈ p.credentials := by
  obtain ⟨_, _, _, _, hu, _⟩ := hs.done ht
  obtain ⟨_, hcred, _, _⟩ := hs.write ht
  -- the unique index keeps the new password apart from every other of the account
  have hgone : ∀ c ∈ db.credentials.rows, c.userId = p.userId → c.type = .password →
      c.id ∈ p.credentials := by
    intro c hcm hcu hct
    by_contra hn
    have := hu c hcm hn
    rw [clashes_password (show c.userId = p.credentialRow.userId from hcu) hct rfl] at this
    cases this
  constructor
  · have hnew : p.credentialRow.id ∉
        (db.credentials.deleteWhere fun c => p.credentials.contains c.id).keys :=
      fun hm => hc (mem_ids.mpr (.inl (mem_keys_kept.mp hm).1))
    have hnone : (db.credentials.deleteWhere fun c => p.credentials.contains c.id).rows.filter
        (fun c => c.userId == p.userId && c.type == .password) = [] := by
      refine List.filter_eq_nil_iff.mpr fun c hcm hct => ?_
      obtain ⟨hcm, hn⟩ := Table.mem_deleteWhere.mp hcm
      simp only [Bool.and_eq_true, beq_iff_eq] at hct
      simp [hgone c hcm hct.1 hct.2] at hn
    unfold passwordsOf
    rw [hcred, show (insertCredential p.credentialRow _).rows = _ ++ [_] from
      Table.insert_rows hnew, List.filter_append, hnone]
    simp [Progress.credentialRow]
  · intro c hcm
    obtain ⟨row, hrow, rfl⟩ := List.mem_map.mp hcm
    obtain ⟨hrow, hct⟩ := List.mem_filter.mp hrow
    simp only [Bool.and_eq_true, beq_iff_eq] at hct
    exact hgone row hrow hct.1 hct.2

end Runs

/-- What holds in a reachable state, and of every replacement that commits next. -/
structure SessionsEnd (s : State) : Prop where
  /-- A replaced credential is gone, and no session is bound to it. -/
  gone : ∀ e ∈ s.db.log, ∀ c ∈ e.credentials, c ∉ s.db.credentials.keys ∧
    ∀ r ∈ s.db.sessions.rows, r.credentialId ≠ some c
  /-- No session from before the `DELETE` is left. -/
  before : ∀ e ∈ s.db.log, ∀ r ∈ s.db.sessions.rows, r.id ∉ e.before
  /-- No credential is replaced twice, and `changePassword` replaces the one it verified. -/
  once : s.db.log.Pairwise fun e e' => ∀ c ∈ e.credentials, c ∉ e'.credentials
  verified : ∀ e ∈ s.db.log, ∀ c, e.verified = some c → c ∈ e.credentials
  /-- A replacement replaces the account's password, and opens one session. -/
  opened : ∀ a e, (step s a).db.log = s.db.log ++ [e] →
    (∀ c ∈ passwordsOf s.db e.userId, c ∈ e.credentials) ∧
      passwordsOf (step s a).db e.userId = [e.credentialId] ∧
      sessionsBoundTo (step s a).db e.credentialId = [e.sessionId]
  /-- The log is kept. -/
  kept : ∀ as, s.db.log <+: (run step s as).db.log

/-- **No session outlives its credential.** -/
theorem sessionsEnd_run (seed : Seed) (as : List Action) : SessionsEnd (run step (init seed) as) := by
  have h := inv_run seed as
  generalize run step (init seed) as = s at h
  constructor
  · intro e he c hc
    refine ⟨h.kept.replaced e he c hc, fun r hr hrc => ?_⟩
    exact h.kept.replaced e he c hc (h.kept.bound r hr c hrc)
  · intro e he r hr hb
    exact h.kept.before e he r.id hb (List.mem_map_of_mem hr)
  · exact h.kept.apart
  · exact h.kept.verified
  · intro a e hlog
    rcases log_step s a with hsame | ⟨t, p, hp, ht, hdb⟩
    · rw [hsame] at hlog
      exact absurd hlog (by simp)
    · have hs := h.facts t _ hp
      have hids := fun id hid => (h.taken t _ hp id hid).2
      have he : e = p.entry := by
        rw [hdb] at hlog
        simpa [Progress.write] using hlog.symm
      rw [hdb, he]
      obtain ⟨hnow, hold⟩ := passwordsOf_write hs ht (hids _ (by simp [Phase.ids]))
      exact ⟨hold, hnow, sessionsBoundTo_write h.kept hs ht (hids _ (by simp [Phase.ids]))
        (hids _ (by simp [Phase.ids]))⟩
  · exact log_prefix s

/-- An account with a password. -/
def oneAccount : Seed where
  credentials := insertCredential
    { id := "crd_1", userId := "usr_1", type := .password, secretHash := some "h1" } Table.empty
  sessions := Table.empty
  bound := fun _ hr => absurd hr List.not_mem_nil

/-- Two logins verify the old password: one inserts its session before the change, one after. -/
def changedMeanwhile : List Action :=
  [.start 1 (.login ⟨"ses_1", "t1", "usr_1", .password, none⟩),
    .start 2 (.login ⟨"ses_2", "t2", "usr_1", .pending, none⟩),
    .start 3 (.changePassword "usr_1" false ⟨"crd_3", "h3", "ses_3", "t3"⟩),
    .next 1 true 0, .next 1 true 0, .next 3 true 1, .next 3 true 1, .next 3 true 1, .next 2 true 1,
    .next 3 true 1, .next 3 true 1, .next 3 true 1, .next 3 true 1, .next 3 true 1, .next 3 true 1,
    .next 3 true 1, .next 3 true 1, .next 3 true 1, .next 2 true 2]

example : (run step (init oneAccount) changedMeanwhile).db.sessions.rows.map (·.id) = ["ses_3"] := by
  decide +kernel

end BunMail.Users.Passwords
