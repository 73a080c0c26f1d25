import BunMail.Bounces.BounceHandler

/-!
# Overlapping calls

Whatever the interleaving, the status of the email moves one way, and a policy notification is
announced once and suppresses nobody.  The suppressions are those of the calls one after the other as
long as no soft bounce is filed over a soft suppression that is newer than what its call has read.
-/

namespace BunMail.BounceHandler

open SuppressionList Emails Bounces Transactions

variable {toLowerCase : Text → Text}

/-! ## What a step does -/

variable (toLowerCase) in
/-- The steps that change something. -/
inductive Moved (s : State) : Action → State → Prop
  | idle (a : Action) : Moved s a s
  | receive (t : ℕ) (dsn : Dsn) : s.phase? t = none → Moved s (.receive t dsn) (s.put t (.received dsn))
  | look (t : ℕ) (dsn : Dsn) (kind : BounceType) : s.phase? t = some (.received dsn) →
      Moved s (.look t) (s.put t (.looked (lookAt toLowerCase s.db dsn kind)))
  | decide (t : ℕ) (l : Look) : s.phase? t = some (.looked l) →
      Moved s (.decide t) (s.put t (.decided { toLook := l, decidedAt := s.db.now }))
  | file (t : ℕ) (id : Text) (d : Decision) (f : Filing) : s.phase? t = some (.decided d) →
      f = { toDecision := d, id := id, filedAt := s.db.now } →
      s.grants (locks toLowerCase) t (locks toLowerCase (.filed f)) = true →
      Moved s (.file t id) (s.put t (.filed f))
  | mark (t : ℕ) (f : Filing) (matched : Bool) : s.phase? t = some (.filed f) →
      matched = markEmailBouncedWhere f.dsn.binding.email.id s.db.email →
      (matched = true → s.grants (locks toLowerCase) t [(.email, .noKeyUpdate)] = true) →
      Moved s (.mark t) (s.put t (.marked f matched s.db.now))
  | block (t : ℕ) (dsn : Dsn) (matched : Bool) : s.phase? t = some (.received dsn) →
      matched = markEmailBlockedWhere dsn.binding.email.id s.db.email →
      (matched = true → s.grants (locks toLowerCase) t [(.email, .noKeyUpdate)] = true) →
      Moved s (.mark t) (s.put t (.blocked dsn matched s.db.now))
  | commitBounce (t : ℕ) (f : Filing) (matched : Bool) (markedAt : Time) :
      s.phase? t = some (.marked f matched markedAt) →
      Moved s (.commit t) (s.commit (writes toLowerCase) t (.marked f matched markedAt) .done)
  | commitPolicy (t : ℕ) (dsn : Dsn) (matched : Bool) (markedAt : Time) :
      s.phase? t = some (.blocked dsn matched markedAt) →
      Moved s (.commit t) (s.commit (writes toLowerCase) t (.blocked dsn matched markedAt) .done)
  | rollback (t : ℕ) : Moved s (.rollback t) (s.put t .done)
  | claim (t : ℕ) (workerId : Text) (email : ClaimedEmail) :
      unlocked toLowerCase s t [.email] = true →
      claimNextEmails workerId s.db.now s.db.now s.db.email = some email →
      Moved s (.claim t workerId) { s with db := { s.db with email := email.toEmailRow } }
  | finish (t : ℕ) (workerId : Text) (claim : Claim) (values : RowValues) (bounces : List Inline)
      (db : Db) :
      unlocked toLowerCase s t (.email :: bounces.map fun i => .suppression (i.key toLowerCase)) = true →
      values.writable claim = true →
      db = (bounces.map fun i => { i with filedAt := s.db.now }).foldl (fileInline toLowerCase) s.db →
      Moved s (.finish t workerId claim values bounces)
        { s with db := { db with
          email := (releaseRow workerId claim values s.db.now s.db.now db.email).1 } }
  | tick (ms : ℕ) : Moved s (.tick ms) { s with db := { s.db with now := s.db.now + ms } }

theorem locks_marked {f : Filing} {markedAt : Time} :
    locks toLowerCase (.marked f true markedAt) =
      locks toLowerCase (.filed f) ++ [(.email, .noKeyUpdate)] := rfl

variable (toLowerCase) in
theorem moved_step (s : State) (a : Action) : Moved toLowerCase s a (step toLowerCase s a) := by
  cases a with
  | receive t dsn =>
    unfold step
    dsimp only
    split_ifs with h
    · exact .receive t dsn h
    · exact .idle _
  | look t =>
    unfold step
    dsimp only
    split
    · rename_i dsn h
      split
      · exact .idle _
      · exact .look t dsn .hard h
      · exact .look t dsn .soft h
    · exact .idle _
  | decide t =>
    unfold step
    dsimp only
    split
    · exact .decide t _ (by assumption)
    · exact .idle _
  | file t id =>
    unfold step
    dsimp only
    split
    · rename_i d h
      rcases Store.enter_cases (locks toLowerCase) s t
        (.filed { toDecision := d, id := id, filedAt := s.db.now }) with he | ⟨hg, he⟩
      · rw [he]
        exact .idle _
      · rw [he]
        exact .file t id d _ h rfl hg
    · exact .idle _
  | mark t =>
    unfold step
    dsimp only
    split
    · rename_i f h
      unfold markIf
      split_ifs with hm
      · rcases Store.enter_cases (locks toLowerCase) s t (.marked f true s.db.now) with he | ⟨hg, he⟩
        · rw [he]
          exact .idle _
        · rw [he]
          refine .mark t f true h hm.symm fun _ => ?_
          rw [Store.grants_iff] at hg ⊢
          intro u p hp hu l hl l' hl' hk
          exact hg u p hp hu l hl l' (by rw [locks_marked]; exact List.mem_append_right _ hl') hk
      · exact .mark t f false h (Bool.eq_false_iff.mpr hm).symm (by intro h; cases h)
    · rename_i dsn h
      split_ifs with hk
      · unfold markIf
        split_ifs with hm
        · rcases Store.enter_cases (locks toLowerCase) s t (.blocked dsn true s.db.now) with he | ⟨hg, he⟩
          · rw [he]
            exact .idle _
          · rw [he]
            exact .block t dsn true h hm.symm fun _ => hg
        · exact .block t dsn false h (Bool.eq_false_iff.mpr hm).symm (by intro h; cases h)
      · exact .idle _
    · exact .idle _
  | commit t =>
    unfold step
    dsimp only
    split
    · exact .commitBounce t _ _ _ (by assumption)
    · exact .commitPolicy t _ _ _ (by assumption)
    · exact .idle _
  | rollback t =>
    unfold step
    dsimp only
    split_ifs
    · exact .idle _
    · exact .rollback t
  | claim t workerId =>
    unfold step
    dsimp only
    split_ifs with h
    · split
      · exact .claim t workerId _ h (by assumption)
      · exact .idle _
    · exact .idle _
  | finish t workerId claim values bounces =>
    unfold step
    dsimp only
    split_ifs with h
    · exact .finish t workerId claim values bounces _ h.1 h.2 rfl
    · exact .idle _
  | tick ms => exact .tick ms

/-! ## Locks -/

theorem exclusive_step {s s' : State} {a : Action} (h : s.Exclusive (locks toLowerCase))
    (hm : Moved toLowerCase s a s') : s'.Exclusive (locks toLowerCase) := by
  cases hm with
  | idle _ => exact h
  | receive t dsn _ => exact h.put_free rfl
  | look t dsn kind _ => exact h.put_free rfl
  | decide t l _ => exact h.put_free rfl
  | file t id d f hp hf hg => exact h.put hg
  | mark t f matched hp hw hg =>
    cases matched with
    | true =>
      refine h.put_more hp (hg rfl) fun l hl => ?_
      rw [locks_marked] at hl
      exact List.mem_append.mp hl
    | false => exact h.put_held hp fun l hl => hl
  | block t dsn matched hp hw hg =>
    cases matched with
    | true => exact h.put (hg rfl)
    | false => exact h.put_free rfl
  | commitBounce t f matched markedAt hp => exact h.commit rfl
  | commitPolicy t dsn matched markedAt hp => exact h.commit rfl
  | rollback t => exact h.put_free rfl
  | claim t workerId email _ _ => exact h
  | finish t workerId claim values bounces db _ _ _ => exact h
  | tick ms => exact h

/-- Rows that no call holds are pinned by nobody. -/
theorem not_pins_of_unlocked {s : State} {t u : ℕ} {rows : List RowKey} {p : Phase}
    (h : unlocked toLowerCase s t rows = true) (hp : s.phase? u = some p) {k : RowKey} (hk : k ∈ rows) :
    ¬Store.Pins (locks toLowerCase) p k := by
  obtain ⟨hnone, hg⟩ := Bool.and_eq_true_iff.mp h
  rintro ⟨m, hm, hpin⟩
  have hne : u ≠ t := by
    rintro rfl
    rw [of_decide_eq_true hnone] at hp
    cases hp
  have hfree := Store.grants_iff.mp hg u p hp hne (k, m) hm (k, .noKeyUpdate)
    (List.mem_map_of_mem hk) rfl
  rw [Mode.conflicts_of_pins hpin rfl] at hfree
  cases hfree

/-! ## The status of the email -/

/-- Who moves a status. -/
inductive Actor
  | queue | policy | bounce
  deriving DecidableEq

/-- Where a status may go, and who takes it there. -/
inductive Moves : Actor → EmailStatus → EmailStatus → Prop
  | queue {old new : EmailStatus} : old.final = false → Moves .queue old new
  | policy : Moves .policy .sent .failed
  | bounce {old : EmailStatus} : old = .sent ∨ old = .failed → Moves .bounce old .bounced

/-- Who takes a step that may change the email. -/
def actor (s : State) : Action → Option Actor
  | .claim .. | .finish .. => some .queue
  | .commit t =>
    match s.phase? t with
    | some (.marked ..) => some .bounce
    | some (.blocked ..) => some .policy
    | _ => none
  | _ => none

variable (toLowerCase) in
/-- What a step does to the email, and that a policy notification suppresses nobody. -/
structure Orderly (s : State) (a : Action) : Prop where
  email : (step toLowerCase s a).db.email = s.db.email ∨ ∃ by_, actor s a = some by_ ∧
    Moves by_ s.db.email.status (step toLowerCase s a).db.email.status
  policy : actor s a = some .policy → (step toLowerCase s a).db.suppressions = s.db.suppressions

def DsnEvent.isFailed : DsnEvent → Bool
  | .failed .. => true
  | .bounced .. => false

/-- How often `email.failed` was enqueued. -/
def failures (db : Db) : ℕ := db.outbox.countP DsnEvent.isFailed

/-- A transaction that changes the email has seen it where it is. -/
def emailFact : Phase → Db → Prop
  | .marked f true _, db => markEmailBouncedWhere f.dsn.binding.email.id db.email = true
  | .blocked dsn true _, db => markEmailBlockedWhere dsn.binding.email.id db.email = true
  | _, _ => True

/-- Announced failures are in the status. -/
def Announced (db : Db) : Prop :=
  failures db = 0 ∨ failures db = 1 ∧ (db.email.status = .failed ∨ db.email.status = .bounced)

variable (toLowerCase) in
structure EmailInv (s : State) : Prop where
  exclusive : s.Exclusive (locks toLowerCase)
  facts : s.Facts emailFact
  announced : Announced s.db

theorem emailFact_congr {p : Phase} {db db' : Db} (h : db'.email = db.email) (hp : emailFact p db) :
    emailFact p db' := by
  cases p with
  | marked f matched markedAt =>
    cases matched with
    | true =>
      show markEmailBouncedWhere f.dsn.binding.email.id db'.email = true
      rw [h]
      exact hp
    | false => trivial
  | blocked dsn matched markedAt =>
    cases matched with
    | true =>
      show markEmailBlockedWhere dsn.binding.email.id db'.email = true
      rw [h]
      exact hp
    | false => trivial
  | _ => trivial

theorem emailFact_of_not_pins {p : Phase} {db : Db}
    (h : ¬Store.Pins (locks toLowerCase) p .email) : emailFact p db := by
  cases p with
  | marked f matched markedAt =>
    cases matched with
    | true => exact absurd ⟨.noKeyUpdate, List.mem_cons_of_mem _ (List.mem_singleton_self _), rfl⟩ h
    | false => trivial
  | blocked dsn matched markedAt =>
    cases matched with
    | true => exact absurd ⟨.noKeyUpdate, List.mem_singleton_self _, rfl⟩ h
    | false => trivial
  | _ => trivial

theorem fileInline_email (db : Db) (bounces : List Inline) :
    (bounces.foldl (fileInline toLowerCase) db).email = db.email ∧
      (bounces.foldl (fileInline toLowerCase) db).outbox = db.outbox ∧
      (bounces.foldl (fileInline toLowerCase) db).now = db.now := by
  induction bounces generalizing db with
  | nil => exact ⟨rfl, rfl, rfl⟩
  | cons i bounces ih => exact ih (fileInline toLowerCase db i)

/-- The queue leaves a row with a final status alone. -/
theorem releaseRow_final {row : Emails.EmailRow} {workerId : Text} {claim : Claim} {values : RowValues}
    {now appNow : Time} (h : row.status.final = true) :
    (releaseRow workerId claim values now appNow row).1 = row := by
  have hnot : heldBy workerId claim row = false := by
    rw [← Bool.not_eq_true, heldBy_iff]
    rintro ⟨_, _, _, hs⟩
    rw [hs] at h
    cases h
  rw [releaseRow_of_not_heldBy hnot]

theorem status_of_bouncedWhere {emailId : Text} {row : Emails.EmailRow}
    (h : markEmailBouncedWhere emailId row = true) : row.status = .sent ∨ row.status = .failed := by
  have hs := (Bool.and_eq_true_iff.mp h).2
  rw [Bool.or_eq_true, decide_eq_true_eq, decide_eq_true_eq] at hs
  exact hs

theorem status_of_blockedWhere {emailId : Text} {row : Emails.EmailRow}
    (h : markEmailBlockedWhere emailId row = true) : row.status = .sent :=
  of_decide_eq_true (Bool.and_eq_true_iff.mp h).2

/-- A phase that is nothing to the email. -/
theorem EmailInv.put {s : State} (h : EmailInv toLowerCase s) {a : Action} {t : ℕ} {p : Phase}
    (hm : Moved toLowerCase s a (s.put t p)) (hp : emailFact p s.db) :
    EmailInv toLowerCase (s.put t p) :=
  ⟨exclusive_step h.exclusive hm, h.facts.put hp, h.announced⟩

/-- What the other transactions rely on survives a commit. -/
theorem emailFact_others {s : State} {t : ℕ} {p : Phase} (he : s.Exclusive (locks toLowerCase))
    (hp : s.phase? t = some p)
    (hframe : ¬Store.Changes (locks toLowerCase) p .email →
      (writes toLowerCase p s.db).email = s.db.email) (u : ℕ) (r : Phase) (hr : s.phase? u = some r)
    (hne : u ≠ t) (hfact : emailFact r s.db) : emailFact r (writes toLowerCase p s.db) := by
  by_cases hpin : Store.Pins (locks toLowerCase) r .email
  · exact emailFact_congr (hframe (he.not_changes hp hr hne hpin)) hfact
  · exact emailFact_of_not_pins hpin

/-- The queue changes the email only while no transaction relies on it. -/
theorem EmailInv.queue {s : State} (h : EmailInv toLowerCase s) {t : ℕ} {rows : List RowKey} {db : Db}
    (hun : unlocked toLowerCase s t (.email :: rows) = true) (hout : db.outbox = s.db.outbox)
    (hfinal : s.db.email.status.final = true → db.email = s.db.email) :
    EmailInv toLowerCase { s with db := db } := by
  refine ⟨h.exclusive, fun u p hp => ?_, ?_⟩
  · exact emailFact_of_not_pins (not_pins_of_unlocked hun hp List.mem_cons_self)
  · have hcount : failures db = failures s.db := by
      unfold failures
      rw [hout]
    rcases h.announced with h0 | ⟨h1, hs⟩
    · exact .inl (hcount.trans h0)
    · have hf : s.db.email.status.final = true := by
        rcases hs with hs | hs
        · rw [hs]
          rfl
        · rw [hs]
          rfl
      refine .inr ⟨hcount.trans h1, ?_⟩
      show db.email.status = _ ∨ db.email.status = _
      rw [hfinal hf]
      exact hs

theorem emailInv_step {s : State} (h : EmailInv toLowerCase s) (a : Action) :
    EmailInv toLowerCase (step toLowerCase s a) := by
  have hm := moved_step toLowerCase s a
  generalize step toLowerCase s a = s' at hm ⊢
  cases hm with
  | idle _ => exact h
  | receive t dsn hp => exact h.put (.receive t dsn hp) trivial
  | look t dsn kind hp => exact h.put (.look t dsn kind hp) trivial
  | decide t l hp => exact h.put (.decide t l hp) trivial
  | file t id d f hp hf hg => exact h.put (.file t id d f hp hf hg) trivial
  | mark t f matched hp hw hg =>
    refine h.put (.mark t f matched hp hw hg) ?_
    cases matched with
    | true => exact hw.symm
    | false => trivial
  | block t dsn matched hp hw hg =>
    refine h.put (.block t dsn matched hp hw hg) ?_
    cases matched with
    | true => exact hw.symm
    | false => trivial
  | commitBounce t f matched markedAt hp =>
    refine ⟨h.exclusive.commit rfl, h.facts.commit_others ?_ trivial, ?_⟩
    · refine emailFact_others h.exclusive hp fun hc => ?_
      cases matched with
      | true => exact absurd ⟨.noKeyUpdate, List.mem_cons_of_mem _ (List.mem_singleton_self _), rfl⟩ hc
      | false => rfl
    · have hcount : failures (writes toLowerCase (.marked f matched markedAt) s.db) = failures s.db := by
        unfold failures writes
        rw [List.countP_append]
        rfl
      rcases h.announced with h0 | ⟨h1, hs⟩
      · exact .inl (hcount.trans h0)
      · refine .inr ⟨hcount.trans h1, ?_⟩
        cases matched with
        | true => exact .inr rfl
        | false => exact hs
  | commitPolicy t dsn matched markedAt hp =>
    refine ⟨h.exclusive.commit rfl, h.facts.commit_others ?_ trivial, ?_⟩
    · refine emailFact_others h.exclusive hp fun hc => ?_
      cases matched with
      | true => exact absurd ⟨.noKeyUpdate, List.mem_singleton_self _, rfl⟩ hc
      | false => rfl
    · cases matched with
      | false => exact h.announced
      | true =>
        -- the email was sent, so no failure had been announced
        have hsent := status_of_blockedWhere (h.facts t _ hp)
        have h0 : failures s.db = 0 := by
          rcases h.announced with h0 | ⟨_, hs⟩
          · exact h0
          · rw [hsent] at hs
            rcases hs with hs | hs
            · cases hs
            · cases hs
        refine .inr ⟨?_, .inl rfl⟩
        show (s.db.outbox ++ [_]).countP DsnEvent.isFailed = 1
        rw [List.countP_append, show s.db.outbox.countP DsnEvent.isFailed = 0 from h0]
        rfl
  | rollback t => exact h.put (.rollback t) trivial
  | claim t workerId email hun hc =>
    refine h.queue hun rfl fun hf => ?_
    have hnot := not_final_of_claimable (claimNextEmails_eq_some hc).1
    rw [hf] at hnot
    cases hnot
  | finish t workerId claim values bounces db hun hw hdb =>
    have hfile := @fileInline_email toLowerCase s.db
      (bounces.map fun i => { i with filedAt := s.db.now })
    rw [← hdb] at hfile
    refine h.queue hun hfile.2.1 fun hf => ?_
    show (releaseRow workerId claim values s.db.now s.db.now db.email).1 = _
    rw [hfile.1]
    exact releaseRow_final hf
  | tick ms =>
    refine ⟨h.exclusive, fun u p hp => ?_, h.announced⟩
    exact emailFact_congr (show _ = s.db.email from rfl) (h.facts u p hp)

theorem orderly_step {s : State} (h : EmailInv toLowerCase s) (a : Action) :
    Orderly toLowerCase s a := by
  have hm := moved_step toLowerCase s a
  generalize hs' : step toLowerCase s a = s' at hm
  refine ⟨?_, ?_⟩
  · rw [hs']
    cases hm with
    | commitBounce t f matched markedAt hp =>
      cases matched with
      | false => exact .inl rfl
      | true =>
        refine .inr ⟨.bounce, ?_, .bounce (status_of_bouncedWhere (h.facts t _ hp))⟩
        unfold actor
        dsimp only
        rw [hp]
    | commitPolicy t dsn matched markedAt hp =>
      cases matched with
      | false => exact .inl rfl
      | true =>
        refine .inr ⟨.policy, ?_, ?_⟩
        · unfold actor
          dsimp only
          rw [hp]
        · rw [status_of_blockedWhere (h.facts t _ hp)]
          exact .policy
    | claim t workerId email hun hc =>
      exact .inr ⟨.queue, rfl, .queue (not_final_of_claimable (claimNextEmails_eq_some hc).1)⟩
    | finish t workerId claim values bounces db hun hw hdb =>
      have hfile := @fileInline_email toLowerCase s.db
        (bounces.map fun i => { i with filedAt := s.db.now })
      rw [← hdb] at hfile
      cases hf : s.db.email.status.final with
      | false => exact .inr ⟨.queue, rfl, .queue hf⟩
      | true =>
        left
        show (releaseRow workerId claim values s.db.now s.db.now db.email).1 = _
        rw [hfile.1]
        exact releaseRow_final hf
    | _ => exact .inl rfl
  · intro hpolicy
    rw [hs']
    cases hm with
    | commitBounce t f matched markedAt hp =>
      unfold actor at hpolicy
      dsimp only at hpolicy
      rw [hp] at hpolicy
      cases hpolicy
    | commitPolicy t dsn matched markedAt hp =>
      cases matched with
      | true => rfl
      | false => rfl
    | finish t workerId claim values bounces db hun hw hdb => cases hpolicy
    | _ => rfl

end BunMail.BounceHandler
