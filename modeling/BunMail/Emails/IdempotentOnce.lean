import BunMail.Emails.IdempotentSend
import BunMail.Lib.Run

/-!
# A key creates one email

While the row of a key is live, no other email is created under the key.  A transaction that claimed a key
holds its row, so that what it read of the row stays true until it ends.
-/

namespace BunMail.Emails.Idempotency

open CodeUnits CanonicalJson Transactions

/-! ## Stored responses -/

section Responses

variable {ν : Type} {body data : JsonObject ν} {name other : CodeUnits} {value : Json ν}

theorem member_cons (m : CodeUnits × Option (Json ν)) (body : JsonObject ν) :
    member (m :: body) name = if m.1 = name then m.2 else member body name := by
  unfold member
  rw [List.find?_cons]
  by_cases h : m.1 = name
  · simp [h]
  · simp [h]

theorem member_append_of_notMem (h : name ∉ body.map Prod.fst) :
    member (body ++ [(name, some value)]) name = some value := by
  induction body with
  | nil => simp [member]
  | cons m body ih =>
    rw [List.map_cons, List.mem_cons, not_or] at h
    rw [List.cons_append, member_cons, if_neg (Ne.symm h.1), ih h.2]

theorem member_append_ne (h : other ≠ name) :
    member (body ++ [(name, some value)]) other = member body other := by
  induction body with
  | nil => simp [member, h.symm]
  | cons m body ih => rw [List.cons_append, member_cons, member_cons, ih]

theorem member_setMember : member (setMember body name value) other =
    if other = name then some value else member body other := by
  unfold setMember
  split_ifs with hmem heq heq
  · subst heq
    induction body with
    | nil => exact absurd hmem List.not_mem_nil
    | cons m body ih =>
      rw [List.map_cons, member_cons]
      by_cases hm : m.1 = other
      · simp [hm]
      · rw [if_neg hm, if_neg hm]
        exact ih ((List.mem_cons.mp hmem).resolve_left (Ne.symm hm))
  · induction body with
    | nil => rfl
    | cons m body ih =>
      have hrest : member (body.map fun m => if m.1 = name then (name, some value) else m) other =
          member body other := by
        by_cases hbody : name ∈ body.map Prod.fst
        · exact ih hbody
        · have hsame : body.map (fun m => if m.1 = name then (name, some value) else m) = body := by
            refine (List.map_congr_left fun m hm => ?_).trans (List.map_id body)
            exact if_neg fun h => hbody (List.mem_map.mpr ⟨m, hm, h⟩)
          rw [hsame]
      rw [List.map_cons, member_cons, member_cons, hrest]
      by_cases hm : m.1 = name
      · rw [if_pos hm, if_neg (Ne.symm heq), if_neg (fun h => heq (h.symm.trans hm))]
      · rw [if_neg hm]
  · subst heq
    exact member_append_of_notMem hmem
  · exact member_append_ne heq

theorem member_filter {p : CodeUnits → Bool} :
    member (data.filter fun m => p m.1) name = if p name then member data name else none := by
  induction data with
  | nil => simp [member]
  | cons m data ih =>
    rw [List.filter_cons]
    by_cases hm : m.1 = name
    · subst hm
      by_cases hp : p m.1
      · rw [if_pos hp, member_cons, if_pos rfl, if_pos hp, member_cons, if_pos rfl]
      · rw [if_neg hp, ih, if_neg hp, if_neg hp]
    · split_ifs with hp hname hname
      · rw [member_cons, member_cons, if_neg hm, if_neg hm, ih, if_pos hname]
      · rw [member_cons, if_neg hm, ih, if_neg hname]
      · rw [member_cons, if_neg hm, ih, if_pos hname]
      · rw [ih, if_neg hname]

theorem member_fill {content : CodeUnits → Json ν} (names : List CodeUnits) :
    member (names.foldl (fun filled name => setMember filled name (content name)) data) other =
      if other ∈ names then some (content other) else member data other := by
  induction names generalizing data with
  | nil => simp
  | cons name names ih =>
    rw [List.foldl_cons, ih, member_setMember]
    by_cases hmem : other ∈ names
    · rw [if_pos hmem, if_pos (List.mem_cons_of_mem _ hmem)]
    · rw [if_neg hmem]
      by_cases heq : other = name
      · rw [if_pos heq, if_pos (heq ▸ List.mem_cons_self), heq]
      · rw [if_neg heq, if_neg fun h => (List.mem_cons.mp h).elim heq hmem]

theorem dataOf_setMember {data' : JsonObject ν} :
    dataOf (setMember body (of "data") (.object data')) = some data' := by
  unfold dataOf
  rw [member_setMember, if_pos rfl]

/-- A stored body has no content. -/
theorem member_withoutContent (h : dataOf (withoutContent body) = some data) (hname : name ∈ CONTENT_FIELDS) :
    member data name = none := by
  unfold withoutContent at h
  cases hdata : dataOf body with
  | none =>
    rw [hdata] at h
    exact absurd (hdata.symm.trans h) (by simp)
  | some whole =>
    rw [hdata] at h
    obtain rfl := Option.some.inj (dataOf_setMember.symm.trans h)
    exact (member_filter (p := fun n => decide (n ∉ CONTENT_FIELDS))).trans (if_neg (by simpa using hname))

/-- A replay is the first response, with the content that is left. -/
structure ReplayOf (first body : JsonObject ν) (content : Option (ReplayContent ν)) : Prop where
  others : ∀ name, name ≠ of "data" → member body name = member first name
  data : ∀ data, dataOf first = some data → ∃ filled, dataOf body = some filled ∧
    ∀ name, member filled name =
      if name ∈ CONTENT_FIELDS then some (fill content name) else member data name

/-- **A stored body, filled again, is the first one.** -/
theorem replayOf_stored (first : JsonObject ν) (content : Option (ReplayContent ν)) :
    ReplayOf first (withContent (withoutContent first) content) content := by
  unfold withoutContent
  cases hdata : dataOf first with
  | none =>
    dsimp only
    unfold withContent
    rw [hdata]
    exact ⟨fun _ _ => rfl, fun data h => absurd (hdata.symm.trans h) (by simp)⟩
  | some whole =>
    dsimp only
    unfold withContent
    rw [dataOf_setMember]
    dsimp only
    refine ⟨fun name hname => ?_, fun data h => ⟨_, dataOf_setMember, fun name => ?_⟩⟩
    · rw [member_setMember, if_neg hname, member_setMember, if_neg hname]
    · obtain rfl := Option.some.inj (hdata.symm.trans h)
      rw [member_fill]
      split_ifs with hfield
      · rfl
      · exact (member_filter (p := fun n => decide (n ∉ CONTENT_FIELDS))).trans
          (if_pos (by simpa using hfield))

end Responses

/-! ## What a call relies on -/

section Runs

variable {ν : Type} {ttl : ℕ} {s : Sends ν} {t u : ℕ} {p : Send ν}

def Creation.slot (c : Creation ν) : Text × Text := c.call.slot

/-- When the key of the creation can be used again. -/
def Creation.expiresAt (ttl : ℕ) (c : Creation ν) : Time := c.startedAt + ttl

/-- The row is that of a creation, whose email may be gone. -/
structure Stores (ttl : ℕ) (row : IdempotencyRecord ν) (c : Creation ν) : Prop where
  record : row = { c.call.record ttl c.startedAt c.email with emailId := row.emailId }
  email : row.emailId = none ∨ row.emailId = some c.email.id

/-- What an answer says of the emails created so far. -/
def AnswerOk (creations : List (Creation ν)) (t : ℕ) (call : Call ν) : Answer ν → Prop
  | .created status body => ∃ c ∈ creations, c.sender = t ∧ c.call = call ∧
      call.buildResponse c.email = (status, body)
  | .replayed status body => ∃ c ∈ creations, c.slot = call.slot ∧ c.call.requestHash = call.requestHash ∧
      (c.call.buildResponse c.email).1 = status ∧ ∃ content, (content = none ∨ content = some c.email.content) ∧
        ReplayOf (c.call.buildResponse c.email).2 body content
  | .reused => ∃ c ∈ creations, c.slot = call.slot ∧ c.call.requestHash ≠ call.requestHash
  | .refused => call.prepared = none
  | .failed => True

/-- What a transaction that claimed its key knows. -/
structure ClaimOk (ttl now : ℕ) (creations : List (Creation ν)) (call : Call ν) (startedAt claimedAt : Time)
    (email : EmailRow ν) : Prop where
  started : startedAt ≤ claimedAt
  claimed : claimedAt ≤ now
  prepared : ∃ prepared, call.prepared = some prepared ∧ email = call.email prepared
  free : ∀ c ∈ creations, c.slot = call.slot → c.expiresAt ttl ≤ claimedAt

/-- What a call has read so far. -/
def StageOk (ttl now : ℕ) (creations : List (Creation ν)) (t : ℕ) (p : Send ν) : Prop :=
  match p.stage with
  | .preparing => True
  | .claiming _ startedAt email | .lost _ startedAt email =>
    startedAt ≤ now ∧ ∃ prepared, p.call.prepared = some prepared ∧ email = p.call.email prepared
  | .claimed startedAt claimedAt email | .inserted startedAt claimedAt email
  | .completed startedAt claimedAt email => ClaimOk ttl now creations p.call startedAt claimedAt email
  | .replaying record _ => ∃ c ∈ creations, c.slot = p.call.slot ∧ Stores ttl record c
  | .answered answer => AnswerOk creations t p.call answer

/-- **What holds between any two statements.** -/
structure Inv (ttl : ℕ) (s : Sends ν) : Prop where
  exclusive : s.store.Exclusive locks
  stages : ∀ t p, s.store.phase? t = some p → StageOk ttl s.now s.creations t p
  rows : ∀ row ∈ s.store.db.keys.rows, ∃ c ∈ s.creations, c.slot = row.slot ∧ Stores ttl row c ∧
    ∀ c' ∈ s.creations, c'.slot = row.slot → c' = c ∨ c'.expiresAt ttl ≤ s.now
  gone : ∀ c ∈ s.creations, c.slot ∉ s.store.db.keys.keys → c.expiresAt ttl ≤ s.now
  emails : ∀ e ∈ s.store.db.emails.rows, ∃ c ∈ s.creations, e = { c.email with deleted := e.deleted }
  ids : (s.creations.map (·.email.id)).Nodup
  senders : (s.creations.map Creation.sender).Nodup
  answered : ∀ c ∈ s.creations, ∃ status body,
    s.store.phase? c.sender = some ⟨c.call, .answered (.created status body)⟩
  spaced : s.creations.Pairwise fun a b => a.slot = b.slot → a.expiresAt ttl ≤ b.claimedAt

theorem inv_init : Inv ttl (Sends.init : Sends ν) where
  exclusive := Store.exclusive_init _
  stages := fun _ _ hp => nomatch hp
  rows := fun _ hrow => absurd hrow List.not_mem_nil
  gone := fun _ hc => absurd hc List.not_mem_nil
  emails := fun _ he => absurd he List.not_mem_nil
  ids := List.nodup_nil
  senders := List.nodup_nil
  answered := fun _ hc => absurd hc List.not_mem_nil
  spaced := List.Pairwise.nil

/-! ## Statements -/

theorem StageOk.mono {now now' : ℕ} {creations : List (Creation ν)} (h : StageOk ttl now creations t p)
    (hle : now ≤ now') : StageOk ttl now' creations t p := by
  unfold StageOk at h ⊢
  cases hstage : p.stage with
  | claiming round startedAt email | lost round startedAt email =>
    rw [hstage] at h
    exact ⟨h.1.trans hle, h.2⟩
  | claimed startedAt claimedAt email | inserted startedAt claimedAt email
  | completed startedAt claimedAt email =>
    rw [hstage] at h
    exact { h with claimed := h.claimed.trans hle }
  | preparing | replaying record locked | answered answer =>
    rw [hstage] at h
    exact h

theorem Inv.not_sender (h : Inv ttl s) (hopen : ∀ p, s.store.phase? t = some p → ∀ a, p.stage ≠ .answered a)
    (c : Creation ν) (hc : c ∈ s.creations) : c.sender ≠ t := by
  rintro rfl
  obtain ⟨status, body, hphase⟩ := h.answered c hc
  exact hopen _ hphase _ rfl

/-- A call that has not answered comes to another stage. -/
theorem Inv.put (h : Inv ttl s) {q : Send ν}
    (hopen : ∀ p, s.store.phase? t = some p → ∀ a, p.stage ≠ .answered a)
    (hexclusive : (s.store.put t q).Exclusive locks) (hstage : StageOk ttl s.now s.creations t q) :
    Inv ttl { s with store := s.store.put t q } where
  exclusive := hexclusive
  stages := fun u r hr => by
    dsimp only at hr
    rw [Store.phase?_put] at hr
    split_ifs at hr with hu
    · obtain rfl := Option.some.inj hr
      exact hu ▸ hstage
    · exact h.stages u r hr
  rows := h.rows
  gone := h.gone
  emails := h.emails
  ids := h.ids
  senders := h.senders
  answered := fun c hc => by
    obtain ⟨status, body, hphase⟩ := h.answered c hc
    refine ⟨status, body, ?_⟩
    dsimp only
    rw [Store.phase?_put_ne (h.not_sender hopen c hc)]
    exact hphase
  spaced := h.spaced

section Statement

variable (h : Inv ttl s) (hp : s.store.phase? t = some p)

include hp in
theorem open_of_stage (hstage : ∀ a, p.stage ≠ .answered a) :
    ∀ q, s.store.phase? t = some q → ∀ a, q.stage ≠ .answered a := by
  intro q hq
  obtain rfl := Option.some.inj (hp.symm.trans hq)
  exact hstage

include h hp

/-- A stage without a lock. -/
theorem Inv.comes_free {stage : Stage ν} (hopen : ∀ a, p.stage ≠ .answered a)
    (hfree : locks { p with stage := stage } = [])
    (hstage : StageOk ttl s.now s.creations t { p with stage := stage }) : Inv ttl (s.comes t p stage) :=
  h.put (open_of_stage hp hopen) (h.exclusive.put_free hfree) hstage

/-- A stage with the lock of the one before. -/
theorem Inv.comes_held {stage : Stage ν} (hopen : ∀ a, p.stage ≠ .answered a)
    (hheld : locks { p with stage := stage } = locks p)
    (hstage : StageOk ttl s.now s.creations t { p with stage := stage }) : Inv ttl (s.comes t p stage) :=
  h.put (open_of_stage hp hopen) (h.exclusive.put_held hp fun l hl => by rwa [hheld] at hl) hstage

/-- **The claim**: no email under the key is left whose lifetime has not passed. -/
theorem Inv.claim {round : ℕ} {startedAt : Time} {email : EmailRow ν}
    (hclaiming : p.stage = .claiming round startedAt email)
    (hg : s.store.grants locks t [(p.call.slot, .noKeyUpdate)] = true) :
    Inv ttl (s.comes t p (s.claim p.call round startedAt email)) := by
  have hopen : ∀ a, p.stage ≠ .answered a := fun a ha => nomatch hclaiming.symm.trans ha
  obtain ⟨hstarted, hprepared⟩ : startedAt ≤ s.now ∧
      ∃ prepared, p.call.prepared = some prepared ∧ email = p.call.email prepared := by
    have hok := h.stages t p hp
    unfold StageOk at hok
    rwa [hclaiming] at hok
  have hput : ∀ stage, locks (⟨p.call, stage⟩ : Send ν) = [(p.call.slot, .noKeyUpdate)] →
      StageOk ttl s.now s.creations t ⟨p.call, stage⟩ → Inv ttl (s.comes t p stage) := by
    intro stage hlocks hstage
    refine h.put (open_of_stage hp hopen) (h.exclusive.put ?_) hstage
    exact (congrArg (s.store.grants locks t) hlocks).trans hg
  unfold Sends.claim
  cases hfind : s.store.db.keys.find? p.call.slot with
  | none =>
    refine hput _ rfl ⟨hstarted, le_rfl, hprepared, fun c hc hslot => h.gone c hc ?_⟩
    rw [hslot]
    exact Table.find?_eq_none_iff.mp hfind
  | some row =>
    obtain ⟨hmem, hslot⟩ := Table.find?_eq_some_iff.mp hfind
    obtain ⟨c, hc, hcslot, hstores, hothers⟩ := h.rows row hmem
    dsimp only
    split_ifs with hexpired
    · refine hput _ rfl ⟨hstarted, le_rfl, hprepared, fun c' hc' hslot' => ?_⟩
      rcases hothers c' hc' (hslot'.trans hslot.symm) with rfl | hgone
      · have hexpires : row.expiresAt = c'.expiresAt ttl := by
          rw [hstores.record]
          rfl
        rw [← hexpires]
        exact hexpired.trans hstarted
      · exact hgone
    · exact hput _ rfl ⟨hstarted, hprepared⟩

/-- **The answer from a row**: the response of its creation, or a refusal for another body. -/
theorem Inv.replay {record : IdempotencyRecord ν} {locked : Bool} (hreplaying : p.stage = .replaying record locked) :
    Inv ttl (s.comes t p (.answered (s.replayIdempotentSend p.call record))) := by
  have hopen : ∀ a, p.stage ≠ .answered a := fun a ha => nomatch hreplaying.symm.trans ha
  obtain ⟨c, hc, hslot, hstores⟩ : ∃ c ∈ s.creations, c.slot = p.call.slot ∧ Stores ttl record c := by
    have hok := h.stages t p hp
    unfold StageOk at hok
    rwa [hreplaying] at hok
  refine h.comes_free hp hopen rfl ?_
  show AnswerOk s.creations t p.call (s.replayIdempotentSend p.call record)
  have hhash : record.requestHash = c.call.requestHash := by rw [hstores.record]; rfl
  have hstatus : record.responseStatus = some (c.call.buildResponse c.email).1 := by
    rw [hstores.record]; rfl
  have hbody : record.responseBody = some (withoutContent (c.call.buildResponse c.email).2) := by
    rw [hstores.record]; rfl
  unfold Sends.replayIdempotentSend
  split_ifs with hother
  · exact ⟨c, hc, hslot, hhash ▸ hother⟩
  · rw [hstatus, hbody]
    refine ⟨c, hc, hslot, hhash.symm.trans (not_not.mp hother), rfl, _, ?_, replayOf_stored _ _⟩
    -- the email that is read is the one the key created
    unfold Sends.findReplayContent
    rcases hstores.email with hnone | hsome
    · rw [hnone]
      exact .inl rfl
    · rw [hsome]
      cases hfind : s.store.db.emails.find? c.email.id with
      | none => exact .inl (by rw [Option.bind_some, hfind]; rfl)
      | some e =>
        obtain ⟨hmem, hid⟩ := Table.find?_eq_some_iff.mp hfind
        obtain ⟨c', hc', he⟩ := h.emails e hmem
        have hsame : c' = c := by
          refine List.inj_on_of_nodup_map h.ids hc' hc ?_
          rw [← hid, he]
        subst hsame
        rw [Option.bind_some, hfind, Option.bind_some]
        split_ifs
        · exact .inr (by rw [he])
        · exact .inl rfl

/-- **The commit**: the row and the email of a key, whose last lifetime has passed. -/
theorem Inv.commit {startedAt claimedAt : Time} {email : EmailRow ν}
    (hcompleted : p.stage = .completed startedAt claimedAt email)
    (hfresh : email.id ∉ s.creations.map (·.email.id)) :
    Inv ttl (s.commit ttl t p startedAt claimedAt email) := by
  have hopen : ∀ a, p.stage ≠ .answered a := fun a ha => nomatch hcompleted.symm.trans ha
  have hsender := h.not_sender (open_of_stage hp hopen)
  have hok : ClaimOk ttl s.now s.creations p.call startedAt claimedAt email := by
    have hok := h.stages t p hp
    unfold StageOk at hok
    rwa [hcompleted] at hok
  have hlocks : (p.call.slot, Mode.noKeyUpdate) ∈ locks p := by
    unfold locks
    rw [hcompleted]
    exact List.mem_cons_self
  have hwrites : writes ttl p s.store.db =
      { keys := s.store.db.keys.upsert (p.call.record ttl startedAt email)
          (fun _ => p.call.record ttl startedAt email) fun _ h => h.symm
        emails := s.store.db.emails.insert email } := by
    unfold writes
    rw [hcompleted]
  have hnewEmail : email.id ∉ s.store.db.emails.keys := by
    intro hmem
    obtain ⟨e, he, hid⟩ := List.mem_map.mp hmem
    obtain ⟨c, hc, hsame⟩ := h.emails e he
    refine hfresh (List.mem_map.mpr ⟨c, hc, ?_⟩)
    rw [← hid, hsame]
  let new : Creation ν := ⟨t, p.call, email, startedAt, claimedAt⟩
  have hmem : ∀ {c : Creation ν}, c ∈ s.creations → c ∈ s.creations ++ [new] := List.mem_append_left _
  have hnew : new ∈ s.creations ++ [new] := List.mem_append_right _ List.mem_cons_self
  refine ⟨h.exclusive.commit rfl, fun u r hr => ?_, fun row hrow => ?_, fun c hc hgone => ?_, fun e he => ?_,
    ?_, ?_, fun c hc => ?_, ?_⟩
  · -- the others: nobody else holds the row
    dsimp only [Sends.commit] at hr ⊢
    rw [Store.phase?_commit] at hr
    split_ifs at hr with hu
    · obtain rfl := Option.some.inj hr
      exact ⟨new, hnew, hu.symm, rfl, rfl⟩
    · have hold := h.stages u r hr
      have hclaim : ∀ {started claimed : Time} {e : EmailRow ν}, (r.call.slot, Mode.noKeyUpdate) ∈ locks r →
          ClaimOk ttl s.now s.creations r.call started claimed e →
          ClaimOk ttl s.now (s.creations ++ [new]) r.call started claimed e := by
        intro started claimed e hheld hclaim
        refine { hclaim with free := fun c hc hslot => ?_ }
        rcases List.mem_append.mp hc with hc | hc
        · exact hclaim.free c hc hslot
        · rw [List.mem_singleton.mp hc] at hslot
          have hsame : p.call.slot = r.call.slot := hslot
          rw [← hsame] at hheld
          exact absurd (h.exclusive.eq_of_mem hr hp hheld hlocks rfl) hu
      unfold StageOk at hold ⊢
      cases hstage : r.stage with
      | preparing | claiming round started e | lost round started e =>
        rw [hstage] at hold
        exact hold
      | claimed started claimed e | inserted started claimed e | completed started claimed e =>
        rw [hstage] at hold
        exact hclaim (by unfold locks; rw [hstage]; exact List.mem_cons_self) hold
      | replaying record locked =>
        rw [hstage] at hold
        obtain ⟨c, hc, hslot, hstores⟩ := hold
        exact ⟨c, hmem hc, hslot, hstores⟩
      | answered answer =>
        rw [hstage] at hold
        cases answer with
        | created status body =>
          obtain ⟨c, hc, hrest⟩ := hold
          exact ⟨c, hmem hc, hrest⟩
        | replayed status body =>
          obtain ⟨c, hc, hrest⟩ := hold
          exact ⟨c, hmem hc, hrest⟩
        | reused =>
          obtain ⟨c, hc, hrest⟩ := hold
          exact ⟨c, hmem hc, hrest⟩
        | refused | failed => exact hold
  · change row ∈ (writes ttl p s.store.db).keys.rows at hrow
    rw [hwrites] at hrow
    rcases Table.mem_upsert (fun _ h => h.symm) hrow with ⟨hrow, hne⟩ | ⟨hslot, hrow⟩
    · obtain ⟨c, hc, hcslot, hstores, hothers⟩ := h.rows row hrow
      refine ⟨c, hmem hc, hcslot, hstores, fun c' hc' hslot' => ?_⟩
      rcases List.mem_append.mp hc' with hc' | hc'
      · exact hothers c' hc' hslot'
      · rw [List.mem_singleton.mp hc'] at hslot'
        exact absurd hslot'.symm hne
    · have hsame : row = p.call.record ttl startedAt email := hrow.elim id fun ⟨_, _, _, hrow⟩ => hrow
      subst hsame
      refine ⟨new, hnew, rfl, ⟨rfl, .inr rfl⟩, fun c' hc' hslot' => ?_⟩
      rcases List.mem_append.mp hc' with hc' | hc'
      · exact .inr ((hok.free c' hc' hslot').trans hok.claimed)
      · exact .inl (List.mem_singleton.mp hc')
  · change c.slot ∉ (writes ttl p s.store.db).keys.keys at hgone
    rw [hwrites, Table.mem_keys_upsert, not_or] at hgone
    rcases List.mem_append.mp hc with hc | hc
    · exact h.gone c hc hgone.2
    · rw [List.mem_singleton.mp hc] at hgone
      exact absurd rfl hgone.1
  · change e ∈ (writes ttl p s.store.db).emails.rows at he
    rw [hwrites, Table.insert_rows hnewEmail] at he
    rcases List.mem_append.mp he with he | he
    · obtain ⟨c, hc, hsame⟩ := h.emails e he
      exact ⟨c, hmem hc, hsame⟩
    · refine ⟨new, hnew, ?_⟩
      rw [List.mem_singleton.mp he]
  · show ((s.creations ++ [new]).map (·.email.id)).Nodup
    rw [List.map_append, List.nodup_append]
    refine ⟨h.ids, List.nodup_singleton _, fun a ha b hb => ?_⟩
    rw [List.mem_singleton.mp hb]
    rintro rfl
    exact hfresh ha
  · show ((s.creations ++ [new]).map Creation.sender).Nodup
    rw [List.map_append, List.nodup_append]
    refine ⟨h.senders, List.nodup_singleton _, fun a ha b hb => ?_⟩
    obtain ⟨c, hc, rfl⟩ := List.mem_map.mp ha
    rw [List.mem_singleton.mp hb]
    exact hsender c hc
  · show ∃ status body, (s.store.commit (writes ttl) t p _).phase? c.sender = _
    rcases List.mem_append.mp hc with hc | hc
    · obtain ⟨status, body, hphase⟩ := h.answered c hc
      refine ⟨status, body, ?_⟩
      rw [Store.phase?_commit, if_neg (hsender c hc)]
      exact hphase
    · rw [List.mem_singleton.mp hc]
      exact ⟨_, _, by rw [Store.phase?_commit, if_pos rfl]⟩
  · show (s.creations ++ [new]).Pairwise _
    refine List.pairwise_append.mpr ⟨h.spaced, List.pairwise_singleton _ _, fun a ha b hb hslot => ?_⟩
    rw [List.mem_singleton.mp hb] at hslot ⊢
    exact hok.free a ha hslot

/-- **One statement of a call.** -/
theorem Inv.next : Inv ttl (s.next ttl t p) := by
  have hok := h.stages t p hp
  unfold StageOk at hok
  unfold Sends.next
  cases hstage : p.stage with
  | preparing =>
    have hopen : ∀ a, p.stage ≠ .answered a := by
      intro a ha
      cases hstage.symm.trans ha
    dsimp only
    cases hprepared : p.call.prepared with
    | none => exact h.comes_free hp hopen rfl hprepared
    | some prepared => exact h.comes_free hp hopen rfl ⟨le_rfl, prepared, hprepared, rfl⟩
  | claiming round startedAt email =>
    dsimp only
    split_ifs with hg
    · exact h.claim hp hstage hg
    · exact h
  | lost round startedAt email =>
    have hopen : ∀ a, p.stage ≠ .answered a := by
      intro a ha
      cases hstage.symm.trans ha
    rw [hstage] at hok
    dsimp only
    cases hfind : s.store.db.keys.find? p.call.slot with
    | some winner =>
      obtain ⟨hmem, hslot⟩ := Table.find?_eq_some_iff.mp hfind
      obtain ⟨c, hc, hcslot, hstores, -⟩ := h.rows winner hmem
      refine h.comes_held hp hopen ?_ ⟨c, hc, hcslot.trans hslot, hstores⟩
      unfold locks
      rw [hstage]
    | none =>
      dsimp only
      split_ifs
      · exact h.comes_free hp hopen rfl hok
      · exact h.comes_free hp hopen rfl trivial
  | claimed startedAt claimedAt email =>
    have hopen : ∀ a, p.stage ≠ .answered a := by
      intro a ha
      cases hstage.symm.trans ha
    rw [hstage] at hok
    refine h.comes_held hp hopen ?_ hok
    unfold locks
    rw [hstage]
  | inserted startedAt claimedAt email =>
    have hopen : ∀ a, p.stage ≠ .answered a := by
      intro a ha
      cases hstage.symm.trans ha
    rw [hstage] at hok
    refine h.comes_held hp hopen ?_ hok
    unfold locks
    rw [hstage]
  | completed startedAt claimedAt email =>
    have hopen : ∀ a, p.stage ≠ .answered a := by
      intro a ha
      cases hstage.symm.trans ha
    dsimp only
    split_ifs with hfresh
    · exact h.comes_free hp hopen rfl trivial
    · exact h.commit hp hstage hfresh
  | replaying record locked => exact h.replay hp hstage
  | answered answer => exact h

theorem Inv.rolledBack : Inv ttl (s.rolledBack t p) := by
  unfold Sends.rolledBack
  split
  · exact h
  · next hopen => exact h.comes_free hp hopen rfl trivial

end Statement

/-! ## Every run -/

theorem Inv.begin (h : Inv ttl s) (t : ℕ) (c : Call ν) : Inv ttl (s.begin t c) := by
  unfold Sends.begin
  cases hp : s.store.phase? t with
  | some p => exact h
  | none =>
    have hopen : ∀ q, s.store.phase? t = some q → ∀ a, q.stage ≠ .answered a := by
      intro q hq
      exact nomatch hp.symm.trans hq
    have hfree : Inv ttl { s with store := s.store.put t ⟨c, .preparing⟩ } :=
      h.put hopen (h.exclusive.put_free rfl) trivial
    dsimp only
    cases hfind : s.store.db.keys.find? c.slot with
    | none => exact hfree
    | some row =>
      obtain ⟨hmem, hslot⟩ := Table.find?_eq_some_iff.mp hfind
      obtain ⟨creation, hc, hcslot, hstores, -⟩ := h.rows row hmem
      dsimp only
      split_ifs
      · exact h.put hopen (h.exclusive.put_free rfl) ⟨creation, hc, hcslot.trans hslot, hstores⟩
      · exact hfree

/-- A change of the tables that keeps the rows and the emails those of creations. -/
theorem Inv.withTables (h : Inv ttl s) {db : Tables ν}
    (hrows : ∀ row ∈ db.keys.rows, ∃ c ∈ s.creations, c.slot = row.slot ∧ Stores ttl row c ∧
      ∀ c' ∈ s.creations, c'.slot = row.slot → c' = c ∨ c'.expiresAt ttl ≤ s.now)
    (hgone : ∀ c ∈ s.creations, c.slot ∉ db.keys.keys → c.expiresAt ttl ≤ s.now)
    (hemails : ∀ e ∈ db.emails.rows, ∃ c ∈ s.creations, e = { c.email with deleted := e.deleted }) :
    Inv ttl { s with store := { s.store with db } } :=
  { exclusive := h.exclusive, stages := h.stages, rows := hrows, gone := hgone, emails := hemails,
    ids := h.ids, senders := h.senders, answered := h.answered, spaced := h.spaced }

theorem Inv.purge (h : Inv ttl s) (slot : Text × Text) (age : ℕ) :
    Inv ttl { s with store := { s.store with
      db := { s.store.db with
        keys := s.store.db.keys.deleteWhere fun row =>
          row.slot = slot && decide (row.expiresAt ≤ s.now - age) } } } := by
  refine h.withTables (fun row hrow => h.rows row (Table.mem_deleteWhere.mp hrow).1) (fun c hc hgone => ?_)
    h.emails
  by_cases hheld : c.slot ∈ s.store.db.keys.keys
  · -- the row that went was expired, and it was that of the creation or of a later one
    obtain ⟨row, hrow, hslot⟩ := List.mem_map.mp hheld
    obtain ⟨c', hc', hcslot, hstores, hothers⟩ := h.rows row hrow
    rcases hothers c hc hslot.symm with rfl | hpast
    · have hexpires : row.expiresAt = c.expiresAt ttl := by
        rw [hstores.record]
        rfl
      by_contra hlive
      refine hgone (List.mem_map.mpr ⟨row, Table.mem_deleteWhere.mpr ⟨hrow, ?_⟩, hslot⟩)
      have hkept : ¬ row.expiresAt ≤ s.now - age := by
        rw [hexpires]
        exact fun hpast => hlive (hpast.trans (Nat.sub_le _ _))
      simp [hkept]
    · exact hpast
  · exact h.gone c hc hheld

theorem Inv.trash (h : Inv ttl s) (id : Text) : Inv ttl (s.step ttl (.trash id)) := by
  refine h.withTables h.rows h.gone fun e he => ?_
  obtain ⟨e₀, he₀, rfl⟩ := List.mem_map.mp he
  obtain ⟨c, hc, hsame⟩ := h.emails e₀ he₀
  refine ⟨c, hc, ?_⟩
  split_ifs
  · rw [hsame]
  · exact hsame

theorem Inv.remove (h : Inv ttl s) (id : Text) : Inv ttl (s.step ttl (.remove id)) := by
  unfold Sends.step
  dsimp only
  split_ifs
  · refine h.withTables (fun row hrow => ?_) (fun c hc hgone => ?_) fun e he =>
      h.emails e (Table.mem_deleteWhere.mp he).1
    · obtain ⟨row₀, hrow₀, rfl⟩ := List.mem_map.mp hrow
      obtain ⟨c, hc, hslot, hstores, hothers⟩ := h.rows row₀ hrow₀
      have hsame : (if row₀.emailId = some id then { row₀ with emailId := none } else row₀).slot =
          row₀.slot := by split_ifs <;> rfl
      rw [hsame]
      refine ⟨c, hc, hslot, ?_, hothers⟩
      split_ifs
      · exact ⟨by rw [hstores.record], .inl rfl⟩
      · exact hstores
    · rw [Table.keys_updateAll] at hgone
      exact h.gone c hc hgone
  · exact h

theorem Inv.tick (h : Inv ttl s) (ms : ℕ) : Inv ttl { s with now := s.now + ms } :=
  { h with
    stages := fun u r hr => (h.stages u r hr).mono (Nat.le_add_right _ _)
    rows := fun row hrow => by
      obtain ⟨c, hc, hslot, hstores, hothers⟩ := h.rows row hrow
      exact ⟨c, hc, hslot, hstores, fun c' hc' hslot' =>
        (hothers c' hc' hslot').imp_right fun hpast => hpast.trans (Nat.le_add_right _ _)⟩
    gone := fun c hc hgone => (h.gone c hc hgone).trans (Nat.le_add_right _ _) }

theorem Inv.step (h : Inv ttl s) (a : Step ν) : Inv ttl (s.step ttl a) := by
  cases a with
  | tick ms => exact h.tick ms
  | begin t c => exact h.begin t c
  | next t =>
    show Inv ttl ((s.store.phase? t).elim s (s.next ttl t))
    cases hp : s.store.phase? t with
    | none => exact h
    | some p => exact h.next hp
  | fail t =>
    show Inv ttl ((s.store.phase? t).elim s (s.rolledBack t))
    cases hp : s.store.phase? t with
    | none => exact h
    | some p => exact h.rolledBack hp
  | purge slot age =>
    unfold Sends.step
    dsimp only
    split_ifs
    · exact h.purge slot age
    · exact h
  | trash id => exact h.trash id
  | remove id => exact h.remove id

/-- What holds of the sends under idempotency keys. -/
structure Idempotent (ttl : ℕ) (s : Sends ν) : Prop where
  /-- Within the lifetime of a key, from the start of the transaction, no other email is created. -/
  spaced : s.creations.Pairwise fun a b => a.slot = b.slot → a.expiresAt ttl ≤ b.claimedAt
  /-- Every call creates one email at most, and only one that says so. -/
  senders : (s.creations.map Creation.sender).Nodup ∧ ∀ c ∈ s.creations, ∃ status body,
    s.store.phase? c.sender = some ⟨c.call, .answered (.created status body)⟩
  emails : ∀ e ∈ s.store.db.emails.rows, ∃ c ∈ s.creations, e = { c.email with deleted := e.deleted }
  answers : ∀ t p a, s.store.phase? t = some p → p.stage = .answered a → AnswerOk s.creations t p.call a
  /-- A row is complete and has no content. -/
  rows : ∀ row ∈ s.store.db.keys.rows, row.responseStatus ≠ none ∧ ∃ body, row.responseBody = some body ∧
    ∀ data, dataOf body = some data → ∀ name ∈ CONTENT_FIELDS, member data name = none

theorem Inv.idempotent (h : Inv ttl s) : Idempotent ttl s where
  spaced := h.spaced
  senders := ⟨h.senders, h.answered⟩
  emails := h.emails
  answers := fun t p a hp ha => by
    have hok := h.stages t p hp
    unfold StageOk at hok
    rwa [ha] at hok
  rows := fun row hrow => by
    obtain ⟨c, -, -, hstores, -⟩ := h.rows row hrow
    rw [hstores.record]
    exact ⟨Option.some_ne_none _, _, rfl, fun data hdata name hname => member_withoutContent hdata hname⟩

/-- **A key creates one email in its lifetime, and every other call with it gets that email's answer.** -/
theorem idempotent_run (ttl : ℕ) (steps : List (Step ν)) :
    Idempotent ttl (Run.run (Sends.step ttl) Sends.init steps) :=
  (Run.foldl_invariant (Inv ttl) (fun _ a h => h.step a) inv_init steps).idempotent

end Runs

end BunMail.Emails.Idempotency
