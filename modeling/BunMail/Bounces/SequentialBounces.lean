import BunMail.Bounces.ConcurrentBounces

/-!
# One call after the other

A bounce is decided from the suppression its call has read and filed later.  Filing it gives what
reading and filing at once would give, unless a soft bounce is filed over a soft suppression that was
not there, or had expired, when the call read.  Then the second soft bounce does not escalate.
-/

namespace BunMail.BounceHandler

open SuppressionList Emails Bounces Transactions

/-! ## Rows -/

/-- A suppression without an end. -/
def Permanent (row : Option Suppression) : Prop := ∃ r, row = some r ∧ r.expiresAt = none

/-- A soft suppression that lasts until an instant at least. -/
def SoftUntil (at_ : Time) (row : Option Suppression) : Prop :=
  ∃ r, row = some r ∧ r.bounceType = some .soft ∧ ∃ e, r.expiresAt = some e ∧ at_ ≤ e

/-- A suppression that a soft bounce read before that instant escalates on, or that stays. -/
def Until (at_ : Time) (row : Option Suppression) : Prop := Permanent row ∨ SoftUntil at_ row

theorem Until.mono {at_ at' : Time} {row : Option Suppression} (h : Until at_ row) (hle : at' ≤ at_) :
    Until at' row := by
  rcases h with h | ⟨r, hr, hb, e, he, hat⟩
  · exact .inl h
  · exact .inr ⟨r, hr, hb, e, he, hle.trans hat⟩

section Rows

variable {toLowerCase : Text → Text} {apiKeyId id : Text} {input : AddFromBounceInput} {now : Time}
  {t : Suppressions}

/-- A bounce leaves a permanent suppression, and the whole table, alone. -/
theorem exec_of_permanent {k : Text × Text}
    (hk : k = (addFromBounceUpsert toLowerCase apiKeyId input id now).row.key)
    (h : Permanent (t.find? k)) : ((addFromBounceUpsert toLowerCase apiKeyId input id now).exec t).1 = t := by
  obtain ⟨r, hr, hexp⟩ := h
  rw [hk] at hr
  apply Table.ext_rows
  show Table.upsertRows Suppression.key _ _ t.rows = t.rows
  rw [Table.upsertRows_of_mem (Table.mem_keys_of_find? hr)]
  refine (List.map_congr_left fun r' hr' => ?_).trans (List.map_id _)
  split_ifs with hkey hwhere
  · have hsame : r' = r :=
      Table.eq_of_key_eq hr' (Table.mem_of_find? hr) (hkey.trans (Table.key_of_find? hr).symm)
    have hsome : r'.expiresAt.isSome = true := hwhere
    rw [hsame, hexp] at hsome
    cases hsome
  · rfl
  · rfl

/-- Elsewhere it becomes the suppression in effect. -/
theorem exec_of_not_permanent {k : Text × Text}
    (hk : k = (addFromBounceUpsert toLowerCase apiKeyId input id now).row.key)
    (h : ¬Permanent (t.find? k)) :
    ∃ r, ((addFromBounceUpsert toLowerCase apiKeyId input id now).exec t).1.find? k = some r ∧
      r.bounceType = some input.bounceType ∧ r.expiresAt = input.expiresAt := by
  subst hk
  rw [Upsert.exec_findRow]
  cases hr : t.find? (addFromBounceUpsert toLowerCase apiKeyId input id now).row.key with
  | none => exact ⟨_, rfl, rfl, rfl⟩
  | some r =>
    have hsome : (addFromBounceUpsert toLowerCase apiKeyId input id now).setWhere r = true := by
      show r.expiresAt.isSome = true
      cases hexp : r.expiresAt with
      | none => exact absurd ⟨r, hr, hexp⟩ h
      | some e => rfl
    rw [Option.elim_some, if_pos hsome]
    exact ⟨_, rfl, rfl, rfl⟩

theorem exec_other {k : Text × Text}
    (hk : k ≠ (addFromBounceUpsert toLowerCase apiKeyId input id now).row.key) :
    ((addFromBounceUpsert toLowerCase apiKeyId input id now).exec t).1.find? k = t.find? k :=
  Upsert.exec_findRow_ne _ t hk

theorem permanent_exec {k : Text × Text} (h : Permanent (t.find? k)) :
    Permanent (((addFromBounceUpsert toLowerCase apiKeyId input id now).exec t).1.find? k) := by
  by_cases hk : k = (addFromBounceUpsert toLowerCase apiKeyId input id now).row.key
  · rw [exec_of_permanent hk h]
    exact h
  · rw [exec_other hk]
    exact h

/-- What lasts goes on lasting, when a soft bounce is filed for no shorter. -/
theorem until_exec {k : Text × Text} {at_ : Time} (h : Until at_ (t.find? k))
    (hsoft : ∀ e, input.expiresAt = some e → input.bounceType = .soft ∧
      (k = (addFromBounceUpsert toLowerCase apiKeyId input id now).row.key →
        SoftUntil at_ (t.find? k) → at_ ≤ e)) :
    Until at_ (((addFromBounceUpsert toLowerCase apiKeyId input id now).exec t).1.find? k) := by
  rcases h with h | h
  · exact .inl (permanent_exec h)
  · by_cases hk : k = (addFromBounceUpsert toLowerCase apiKeyId input id now).row.key
    · by_cases hperm : Permanent (t.find? k)
      · exact .inl (permanent_exec hperm)
      obtain ⟨r, hr, hb, hexp⟩ := exec_of_not_permanent hk hperm
      cases he : input.expiresAt with
      | none => exact .inl ⟨r, hr, hexp.trans he⟩
      | some e =>
        obtain ⟨hkind, hle⟩ := hsoft e he
        exact .inr ⟨r, hr, hb.trans (congrArg some hkind), e, hexp.trans he, hle hk h⟩
    · rw [exec_other hk]
      exact .inr h

/-- The suppression a call reads is soft exactly when the row on file is soft and active. -/
theorem active_soft {at_ : Time} {email : Text} (hperm : ¬Permanent (t.find? (apiKeyId, normaliseEmail toLowerCase email))) :
    (findActiveSuppression toLowerCase t at_ apiKeyId email).bind Suppression.bounceType = some .soft ↔
      SoftUntil (at_ + 1) (t.find? (apiKeyId, normaliseEmail toLowerCase email)) := by
  unfold findActiveSuppression
  cases hr : t.find? (apiKeyId, normaliseEmail toLowerCase email) with
  | none =>
    refine iff_of_false (by simp) ?_
    rintro ⟨r, hr, _⟩
    cases hr
  | some r =>
    cases hexp : r.expiresAt with
    | none => exact absurd ⟨r, hr, hexp⟩ hperm
    | some e =>
      rw [Option.filter_some, hexp]
      dsimp only
      constructor
      · intro h
        split_ifs at h with hlt
        · exact ⟨r, rfl, h, e, hexp, of_decide_eq_true hlt⟩
        · cases h
      · rintro ⟨r', hr', hb, e', he', hle⟩
        obtain rfl := Option.some.inj hr'
        rw [hexp] at he'
        obtain rfl := Option.some.inj he'
        have hlt : at_ < e := hle
        rw [if_pos (decide_eq_true hlt)]
        exact hb

/-- A soft suppression that was read is active. -/
theorem until_of_active {at_ : Time} {email : Text}
    (h : (findActiveSuppression toLowerCase t at_ apiKeyId email).bind Suppression.bounceType =
      some .soft) : Until (at_ + 1) (t.find? (apiKeyId, normaliseEmail toLowerCase email)) := by
  by_cases hperm : Permanent (t.find? (apiKeyId, normaliseEmail toLowerCase email))
  · exact .inl hperm
  · exact .inr ((active_soft hperm).mp h)

end Rows

/-! ## What calls rely on -/

section Calls

variable (toLowerCase : Text → Text)

/-- The suppression a bounce would escalate on, now. -/
def seen (l : Look) (t : Suppressions) : Option Suppression :=
  findActiveSuppression toLowerCase t l.lookedAt l.dsn.binding.email.apiKeyId l.dsn.binding.recipient

/-- **No soft bounce is filed over a soft suppression its call has not seen.** -/
def Undisturbed (s : State) : Action → Prop
  | .file t _ => ∀ d, s.phase? t = some (.decided d) → d.finalKind = .soft →
    (seen toLowerCase d.toLook s.db.suppressions).bind Suppression.bounceType ≠ some .soft
  | _ => True

/-- A soft suppression that was read still counts. -/
def Saw (l : Look) (t : Suppressions) : Prop :=
  l.existing.bind Suppression.bounceType = some .soft → Until (l.lookedAt + 1) (t.find? (l.dsn.key toLowerCase))

/-- Reading again would decide the same, or nothing is changed anyway. -/
def Agrees (f : Filing) (t : Suppressions) : Prop :=
  Permanent (t.find? (f.dsn.key toLowerCase)) ∨
    escalateIfRepeat f.kind (seen toLowerCase f.toLook t) = f.finalKind

/-- What holds of the committed suppressions in a phase. -/
def bounceFact : Phase → Db → Prop
  | .looked l, db => l.lookedAt ≤ db.now ∧ Saw toLowerCase l db.suppressions
  | .decided d, db => d.lookedAt ≤ d.decidedAt ∧ d.decidedAt ≤ db.now ∧ Saw toLowerCase d.toLook db.suppressions
  | .filed f, db | .marked f _ _, db =>
    f.lookedAt ≤ f.decidedAt ∧ f.decidedAt ≤ db.now ∧ Agrees toLowerCase f db.suppressions
  | _, _ => True

variable {toLowerCase}

theorem seen_soft {l : Look} {t : Suppressions} (hperm : ¬Permanent (t.find? (l.dsn.key toLowerCase))) :
    (seen toLowerCase l t).bind Suppression.bounceType = some .soft ↔
      SoftUntil (l.lookedAt + 1) (t.find? (l.dsn.key toLowerCase)) := active_soft hperm

theorem key_upsert {f : Filing} {kind : BounceType} :
    f.dsn.key toLowerCase = (f.upsert toLowerCase kind).row.key := rfl

/-- A bounce that agrees is filed as on its own. -/
theorem apply_of_agrees {f : Filing} {t : Suppressions} (h : Agrees toLowerCase f t) :
    Entry.apply toLowerCase t (.bounce f) = ((f.upsert toLowerCase f.finalKind).exec t).1 := by
  show ((f.upsert toLowerCase (escalateIfRepeat f.kind (seen toLowerCase f.toLook t))).exec t).1 = _
  rcases h with hperm | hkind
  · have hleft : ∀ kind, ((f.upsert toLowerCase kind).exec t).1 = t := fun kind =>
      exec_of_permanent key_upsert hperm
    rw [hleft, hleft]
  · rw [hkind]

/-- What the rows on file go through between two commits: what lasts goes on lasting, as far as the
window reaches, and what is permanent stays. -/
structure Lasts (now : Time) (t t' : Suppressions) : Prop where
  permanent : ∀ k, Permanent (t.find? k) → Permanent (t'.find? k)
  until_ : ∀ k at_, at_ ≤ now + SOFT_BOUNCE_WINDOW_MS → Until at_ (t.find? k) → Until at_ (t'.find? k)

theorem Lasts.refl {now : Time} {t : Suppressions} : Lasts now t t := ⟨fun _ h => h, fun _ _ _ h => h⟩

theorem Lasts.trans {now : Time} {t t' t'' : Suppressions} (h : Lasts now t t') (h' : Lasts now t' t'') :
    Lasts now t t'' :=
  ⟨fun k hk => h'.permanent k (h.permanent k hk),
    fun k at_ hat hk => h'.until_ k at_ hat (h.until_ k at_ hat hk)⟩

/-- A bounce that agrees keeps what lasts. -/
theorem lasts_bounce {f : Filing} {t : Suppressions} {now : Time}
    (htimes : f.lookedAt ≤ f.decidedAt) (h : Agrees toLowerCase f t) :
    Lasts now t ((f.upsert toLowerCase f.finalKind).exec t).1 := by
  refine ⟨fun k => permanent_exec, fun k at_ _ huntil => ?_⟩
  by_cases hperm : Permanent (t.find? k)
  · exact .inl (permanent_exec hperm)
  refine until_exec huntil fun e he => ?_
  have hsoft : f.finalKind = .soft := by
    by_contra hne
    have hhard : f.finalKind = .hard := by
      cases hk : f.finalKind with
      | hard => rfl
      | soft => exact absurd hk hne
    dsimp only at he
    rw [if_pos hhard] at he
    cases he
  dsimp only at he
  rw [if_neg (by rw [hsoft]; decide)] at he
  rw [← Option.some.inj he]
  refine ⟨hsoft, fun hkey hfile => ?_⟩
  have hk : k = f.dsn.key toLowerCase := hkey
  subst hk
  -- the suppression on file had expired when the call read
  obtain ⟨r, hr, hb, e', he', hat⟩ := hfile
  have hexpired : ¬SoftUntil (f.lookedAt + 1) (t.find? (f.dsn.key toLowerCase)) := by
    rw [← seen_soft hperm]
    rcases h with h | h
    · exact absurd h hperm
    · intro hactive
      have hkind : f.kind = .soft := by
        cases hk : f.kind with
        | soft => rfl
        | hard =>
          have hfinal : f.finalKind = escalateIfRepeat f.kind f.existing := rfl
          rw [hk, hsoft] at hfinal
          cases hfinal
      rw [hkind, hsoft] at h
      have hhard : escalateIfRepeat .soft (seen toLowerCase f.toLook t) = .hard := if_pos hactive
      rw [hhard] at h
      cases h
  have hle : e' ≤ f.lookedAt := by
    by_contra hlt
    exact hexpired ⟨r, hr, hb, e', he', not_le.mp hlt⟩
  exact (hat.trans hle).trans (htimes.trans (Nat.le_add_right _ _))

/-- So does a bounce of the queue. -/
theorem lasts_inline {i : Inline} {t : Suppressions} {now : Time} (hnow : now ≤ i.filedAt) :
    Lasts now t ((i.upsert toLowerCase).exec t).1 := by
  refine ⟨fun k => permanent_exec, fun k at_ hat huntil => until_exec huntil fun e he => ?_⟩
  dsimp only at he
  split_ifs at he with hsoft
  rw [← Option.some.inj he]
  exact ⟨hsoft, fun _ _ => hat.trans (Nat.add_le_add_right hnow _)⟩

/-- What a call relies on survives when the rows it holds stay and the others last. -/
theorem bounceFact_congr {p : Phase} {db db' : Db} (hnow : db.now ≤ db'.now)
    (hlasts : Lasts db.now db.suppressions db'.suppressions)
    (hpin : ∀ k, Store.Pins (locks toLowerCase) p (.suppression k) →
      db'.suppressions.find? k = db.suppressions.find? k)
    (h : bounceFact toLowerCase p db) : bounceFact toLowerCase p db' := by
  have hsaw : ∀ {l : Look}, l.lookedAt ≤ db.now → Saw toLowerCase l db.suppressions →
      Saw toLowerCase l db'.suppressions := by
    intro l hl hs hsoft
    refine hlasts.until_ _ _ ?_ (hs hsoft)
    exact Nat.add_le_add hl (by decide)
  have hagrees : ∀ {f : Filing}, db'.suppressions.find? (f.dsn.key toLowerCase) =
      db.suppressions.find? (f.dsn.key toLowerCase) → Agrees toLowerCase f db.suppressions →
        Agrees toLowerCase f db'.suppressions := by
    intro f hsame hf
    have hseen : seen toLowerCase f.toLook db'.suppressions = seen toLowerCase f.toLook db.suppressions := by
      unfold seen findActiveSuppression
      exact congrArg _ hsame
    unfold Agrees at hf ⊢
    rwa [hsame, hseen]
  cases p with
  | looked l => exact ⟨h.1.trans hnow, hsaw h.1 h.2⟩
  | decided d => exact ⟨h.1, h.2.1.trans hnow, hsaw (h.1.trans h.2.1) h.2.2⟩
  | filed f =>
    refine ⟨h.1, h.2.1.trans hnow, hagrees (hpin _ ?_) h.2.2⟩
    exact ⟨.noKeyUpdate, List.mem_singleton_self _, rfl⟩
  | marked f matched markedAt =>
    refine ⟨h.1, h.2.1.trans hnow, hagrees (hpin _ ?_) h.2.2⟩
    exact ⟨.noKeyUpdate, List.mem_cons_self, rfl⟩
  | _ => trivial

/-- A bounce that is filed agrees with what is on file. -/
theorem agrees_of_undisturbed {s : State} {t : ℕ} {id : Text} {d : Decision} {f : Filing}
    (hp : s.phase? t = some (.decided d)) (hf : f = { toDecision := d, id := id, filedAt := s.db.now })
    (hu : Undisturbed toLowerCase s (.file t id)) (hsaw : Saw toLowerCase d.toLook s.db.suppressions) :
    Agrees toLowerCase f s.db.suppressions := by
  subst hf
  by_cases hperm : Permanent (s.db.suppressions.find? (d.dsn.key toLowerCase))
  · exact .inl hperm
  right
  have hfinal : d.finalKind = escalateIfRepeat d.kind d.existing := rfl
  show escalateIfRepeat d.kind (seen toLowerCase d.toLook s.db.suppressions) = d.finalKind
  cases hk : d.kind with
  | hard =>
    rw [hfinal, hk]
    rfl
  | soft =>
    by_cases hsoft : d.existing.bind Suppression.bounceType = some .soft
    · have hnow : (seen toLowerCase d.toLook s.db.suppressions).bind Suppression.bounceType = some .soft :=
        (seen_soft hperm).mpr ((hsaw hsoft).resolve_left hperm)
      rw [hfinal, hk]
      unfold escalateIfRepeat
      dsimp only
      rw [if_pos hsoft, if_pos hnow]
    · have hkind : d.finalKind = .soft := by
        rw [hfinal, hk]
        exact if_neg hsoft
      rw [hkind]
      exact if_neg (hu d hp hkind)

/-! ## The run -/

variable (toLowerCase) in
/-- The invariant of a run in which nothing is filed unseen. -/
structure BounceInv (initial : Suppressions) (s : State) : Prop where
  exclusive : s.Exclusive (locks toLowerCase)
  facts : s.Facts (bounceFact toLowerCase)
  serial : s.db.suppressions = s.db.log.foldl (Entry.apply toLowerCase) initial
  covered : ∀ f, Entry.bounce f ∈ s.db.log → f.decidedAt ≤ s.db.now ∧
    Until (f.decidedAt + SOFT_BOUNCE_WINDOW_MS) (s.db.suppressions.find? (f.dsn.key toLowerCase))
  escalated : s.db.log.Pairwise fun a b => ∀ f g, a = .bounce f → b = .bounce g →
    f.dsn.key toLowerCase = g.dsn.key toLowerCase → g.lookedAt < f.decidedAt + SOFT_BOUNCE_WINDOW_MS →
      Permanent (s.db.suppressions.find? (g.dsn.key toLowerCase))

variable {initial : Suppressions}

theorem BounceInv.put {s : State} (h : BounceInv toLowerCase initial s) {a : Action} {t : ℕ} {p : Phase}
    (hm : Moved toLowerCase s a (s.put t p)) (hp : bounceFact toLowerCase p s.db) :
    BounceInv toLowerCase initial (s.put t p) :=
  ⟨exclusive_step h.exclusive hm, h.facts.put hp, h.serial, h.covered, h.escalated⟩

/-- What is on record of the calls so far, after the suppressions have changed in a way that lasts. -/
theorem BounceInv.record {s : State} (h : BounceInv toLowerCase initial s) {t' : Suppressions}
    (hlasts : Lasts s.db.now s.db.suppressions t') :
    (∀ f, Entry.bounce f ∈ s.db.log → f.decidedAt ≤ s.db.now ∧
      Until (f.decidedAt + SOFT_BOUNCE_WINDOW_MS) (t'.find? (f.dsn.key toLowerCase))) ∧
    s.db.log.Pairwise fun a b => ∀ f g, a = .bounce f → b = .bounce g →
      f.dsn.key toLowerCase = g.dsn.key toLowerCase → g.lookedAt < f.decidedAt + SOFT_BOUNCE_WINDOW_MS →
        Permanent (t'.find? (g.dsn.key toLowerCase)) := by
  refine ⟨fun f hf => ?_, h.escalated.imp fun hab f g ha hb hk hlt => ?_⟩
  · obtain ⟨htime, huntil⟩ := h.covered f hf
    exact ⟨htime, hlasts.until_ _ _ (Nat.add_le_add_right htime _) huntil⟩
  · exact hlasts.permanent _ (hab f g ha hb hk hlt)

/-- A commit of a bounce that agrees. -/
theorem bounceInv_commit {s : State} (h : BounceInv toLowerCase initial s) {t : ℕ} {f : Filing}
    {matched : Bool} {markedAt : Time} (hp : s.phase? t = some (.marked f matched markedAt)) :
    BounceInv toLowerCase initial
      (s.commit (writes toLowerCase) t (.marked f matched markedAt) .done) := by
  obtain ⟨htimes, hnow, hagrees⟩ := h.facts t _ hp
  have hlasts : Lasts s.db.now s.db.suppressions _ := lasts_bounce htimes hagrees
  obtain ⟨hcovered, hescalated⟩ := h.record hlasts
  have hwritten : (writes toLowerCase (.marked f matched markedAt) s.db).suppressions =
      ((f.upsert toLowerCase f.finalKind).exec s.db.suppressions).1 := rfl
  -- afterwards the bounce is in effect
  have hperm_or : Permanent (((f.upsert toLowerCase f.finalKind).exec s.db.suppressions).1.find?
      (f.dsn.key toLowerCase)) ∨ ∃ r, ((f.upsert toLowerCase f.finalKind).exec s.db.suppressions).1.find?
        (f.dsn.key toLowerCase) = some r ∧ r.bounceType = some f.finalKind ∧
        r.expiresAt = if f.finalKind = .hard then none else some (f.decidedAt + SOFT_BOUNCE_WINDOW_MS) := by
    by_cases hperm : Permanent (s.db.suppressions.find? (f.dsn.key toLowerCase))
    · exact .inl (permanent_exec hperm)
    · exact .inr (exec_of_not_permanent key_upsert hperm)
  refine ⟨h.exclusive.commit rfl, h.facts.commit_others ?_ trivial, ?_, ?_, ?_⟩
  · intro u r hr hne hfact
    refine bounceFact_congr (le_refl s.db.now) hlasts (fun k hk => ?_) hfact
    by_cases hkey : k = f.dsn.key toLowerCase
    · have hchanges : Store.Changes (locks toLowerCase) (.marked f matched markedAt)
          (.suppression (f.dsn.key toLowerCase)) := ⟨.noKeyUpdate, List.mem_cons_self, rfl⟩
      rw [hkey] at hk
      exact absurd hchanges (h.exclusive.not_changes hp hr hne hk)
    · exact exec_other (show k ≠ (f.upsert toLowerCase f.finalKind).row.key from hkey)
  · show _ = (s.db.log ++ [Entry.bounce f]).foldl (Entry.apply toLowerCase) initial
    rw [List.foldl_append, ← h.serial, List.foldl_cons, List.foldl_nil, apply_of_agrees hagrees]
    rfl
  · intro g hg
    rcases List.mem_append.mp hg with hg | hg
    · exact hcovered g hg
    · obtain rfl : g = f := by
        have heq := List.mem_singleton.mp hg
        exact Entry.bounce.inj heq
      refine ⟨hnow, ?_⟩
      rcases hperm_or with hperm | ⟨r, hr, hb, hexp⟩
      · exact .inl hperm
      · cases hk : g.finalKind with
        | hard =>
          rw [hk] at hexp
          exact .inl ⟨r, hr, hexp⟩
        | soft =>
          rw [hk] at hexp hb
          exact .inr ⟨r, hr, hb, _, hexp, le_rfl⟩
  · show (s.db.log ++ [Entry.bounce f]).Pairwise _
    rw [List.pairwise_append]
    refine ⟨hescalated, List.pairwise_singleton _ _, ?_⟩
    rintro a ha b hb f₁ g rfl rfl hkey hlt
    obtain rfl : g = f := Entry.bounce.inj (List.mem_singleton.mp hb)
    rcases hperm_or with hperm | ⟨r, hr, _, hexp⟩
    · exact hperm
    -- the earlier bounce is still in effect for this call's reading
    have hperm : ¬Permanent (s.db.suppressions.find? (g.dsn.key toLowerCase)) ∨
        Permanent (s.db.suppressions.find? (g.dsn.key toLowerCase)) := (em _).symm
    rcases hperm with hperm | hperm
    · have huntil := (h.covered f₁ ha).2
      rw [hkey] at huntil
      obtain ⟨r', hr', hb', e, he, hat⟩ := huntil.resolve_left hperm
      have hactive : (seen toLowerCase g.toLook s.db.suppressions).bind Suppression.bounceType = some .soft :=
        (seen_soft hperm).mpr ⟨r', hr', hb', e, he, le_trans (Nat.succ_le_of_lt hlt) hat⟩
      have hhard : g.finalKind = .hard := by
        rw [← hagrees.resolve_left hperm]
        cases g.kind with
        | hard => rfl
        | soft => exact if_pos hactive
      rw [hhard] at hexp
      exact ⟨r, hr, hexp⟩
    · exact permanent_exec hperm

/-- The bounces of an outcome. -/
theorem fileInline_run (db : Db) (bounces : List Inline) (htimes : ∀ i ∈ bounces, i.filedAt = db.now) :
    (bounces.foldl (fileInline toLowerCase) db).log = db.log ++ bounces.map .inline ∧
      (bounces.foldl (fileInline toLowerCase) db).suppressions =
        (bounces.map .inline).foldl (Entry.apply toLowerCase) db.suppressions ∧
      Lasts db.now db.suppressions (bounces.foldl (fileInline toLowerCase) db).suppressions ∧
      ∀ k, (∀ i ∈ bounces, i.key toLowerCase ≠ k) →
        (bounces.foldl (fileInline toLowerCase) db).suppressions.find? k = db.suppressions.find? k := by
  induction bounces generalizing db with
  | nil => exact ⟨(List.append_nil _).symm, rfl, Lasts.refl, fun _ _ => rfl⟩
  | cons i bounces ih =>
    have hi := htimes i List.mem_cons_self
    obtain ⟨hlog, htable, hlasts, hframe⟩ := ih (fileInline toLowerCase db i) fun j hj =>
      htimes j (List.mem_cons_of_mem _ hj)
    refine ⟨?_, htable, ?_, fun k hk => ?_⟩
    · rw [List.foldl_cons, hlog]
      show db.log ++ [Entry.inline i] ++ _ = _
      rw [List.append_assoc]
      rfl
    · exact Lasts.trans (lasts_inline (le_of_eq hi.symm)) hlasts
    · rw [List.foldl_cons, hframe k fun j hj => hk j (List.mem_cons_of_mem _ hj)]
      exact exec_other fun heq => hk i List.mem_cons_self heq.symm

theorem bounceInv_finish {s : State} (h : BounceInv toLowerCase initial s) {t : ℕ}
    {bounces : List Inline} {db : Db} {email : Emails.EmailRow}
    (hun : unlocked toLowerCase s t (.email :: bounces.map fun i => .suppression (i.key toLowerCase)) = true)
    (hdb : db = (bounces.map fun i => { i with filedAt := s.db.now }).foldl (fileInline toLowerCase) s.db) :
    BounceInv toLowerCase initial { s with db := { db with email := email } } := by
  obtain ⟨hlog, htable, hlasts, hframe⟩ := @fileInline_run toLowerCase s.db
    (bounces.map fun i => { i with filedAt := s.db.now }) fun i hi => by
      obtain ⟨j, _, rfl⟩ := List.mem_map.mp hi
      rfl
  have hnow := (@fileInline_email toLowerCase s.db
    (bounces.map fun i => { i with filedAt := s.db.now })).2.2
  rw [← hdb] at hlog htable hlasts hframe hnow
  obtain ⟨hcovered, hescalated⟩ := h.record hlasts
  have hold : ∀ {f : Filing}, Entry.bounce f ∈ db.log → Entry.bounce f ∈ s.db.log := by
    intro f hf
    rw [hlog] at hf
    rcases List.mem_append.mp hf with hf | hf
    · exact hf
    · obtain ⟨_, _, heq⟩ := List.mem_map.mp hf
      cases heq
  refine ⟨h.exclusive, fun u p hp => ?_, ?_, fun f hf => ?_, ?_⟩
  · refine bounceFact_congr (le_of_eq hnow.symm) hlasts (fun k hk => hframe k fun i hi heq => ?_)
      (h.facts u p hp)
    obtain ⟨j, hj, rfl⟩ := List.mem_map.mp hi
    refine not_pins_of_unlocked hun hp (List.mem_cons_of_mem _ (List.mem_map.mpr ⟨j, hj, ?_⟩)) hk
    exact congrArg RowKey.suppression heq
  · show db.suppressions = db.log.foldl _ _
    rw [htable, hlog, List.foldl_append, ← h.serial]
  · show f.decidedAt ≤ db.now ∧ _
    rw [hnow]
    exact hcovered f (hold hf)
  · show db.log.Pairwise _
    rw [hlog, List.pairwise_append]
    refine ⟨hescalated, ?_, ?_⟩
    · rw [List.pairwise_map]
      refine List.pairwise_of_forall fun a b f g ha => ?_
      cases ha
    · rintro a _ b hb f g _ rfl
      obtain ⟨_, _, heq⟩ := List.mem_map.mp hb
      cases heq

theorem bounceInv_step {s : State} {a : Action} (h : BounceInv toLowerCase initial s)
    (hu : Undisturbed toLowerCase s a) : BounceInv toLowerCase initial (step toLowerCase s a) := by
  have hm := moved_step toLowerCase s a
  generalize step toLowerCase s a = s' at hm ⊢
  cases hm with
  | idle _ => exact h
  | receive t dsn hp => exact h.put (.receive t dsn hp) trivial
  | look t dsn kind hp =>
    exact h.put (.look t dsn kind hp) ⟨le_rfl, fun hsoft => until_of_active hsoft⟩
  | decide t l hp =>
    obtain ⟨hlooked, hsaw⟩ := h.facts t _ hp
    exact h.put (.decide t l hp) ⟨hlooked, le_rfl, hsaw⟩
  | file t id d f hp hf hg =>
    obtain ⟨hlooked, hdecided, hsaw⟩ := h.facts t _ hp
    have hagrees := agrees_of_undisturbed hp hf hu hsaw
    refine h.put (.file t id d f hp hf hg) ?_
    subst hf
    exact ⟨hlooked, hdecided, hagrees⟩
  | mark t f matched hp hw hg =>
    obtain ⟨hlooked, hdecided, hagrees⟩ := h.facts t _ hp
    exact h.put (.mark t f matched hp hw hg) ⟨hlooked, hdecided, hagrees⟩
  | block t dsn matched hp hw hg => exact h.put (.block t dsn matched hp hw hg) trivial
  | commitBounce t f matched markedAt hp => exact bounceInv_commit h hp
  | commitPolicy t dsn matched markedAt hp =>
    cases matched with
    | true =>
      refine ⟨h.exclusive.commit rfl, h.facts.commit_others ?_ trivial, h.serial, h.covered,
        h.escalated⟩
      exact fun u r hr _ hfact => bounceFact_congr (le_refl s.db.now) Lasts.refl (fun _ _ => rfl) hfact
    | false => exact h.put (.rollback t) trivial
  | rollback t => exact h.put (.rollback t) trivial
  | claim t workerId email hun hc =>
    refine ⟨h.exclusive, fun u p hp => ?_, h.serial, h.covered, h.escalated⟩
    exact bounceFact_congr (le_refl s.db.now) Lasts.refl (fun _ _ => rfl) (h.facts u p hp)
  | finish t workerId claim values bounces db hun hw hdb => exact bounceInv_finish h hun hdb
  | tick ms =>
    refine ⟨h.exclusive, fun u p hp => ?_, h.serial, fun f hf => ?_, h.escalated⟩
    · exact bounceFact_congr (Nat.le_add_right s.db.now ms) Lasts.refl (fun _ _ => rfl) (h.facts u p hp)
    · exact ⟨(h.covered f hf).1.trans (Nat.le_add_right _ _), (h.covered f hf).2⟩

theorem bounceInv_start (email : Emails.EmailRow) (now : Time) :
    BounceInv toLowerCase initial (start initial email now) where
  exclusive := Store.exclusive_init _
  facts := by
    intro t p hp
    cases hp
  serial := rfl
  covered f hf := absurd hf (List.not_mem_nil)
  escalated := List.Pairwise.nil

theorem emailInv_start (email : Emails.EmailRow) (now : Time) :
    EmailInv toLowerCase (start initial email now) where
  exclusive := Store.exclusive_init _
  facts := by
    intro t p hp
    cases hp
  announced := .inl rfl

end Calls

/-! ## The result -/

section Result

variable (toLowerCase : Text → Text)

instance Undisturbed.decidable (s : State) : ∀ a, Decidable (Undisturbed toLowerCase s a)
  | .file t _ =>
    let files := (s.phase? t).elim true fun p => match p with
      | .decided d => decide (d.finalKind = .soft →
          (seen toLowerCase d.toLook s.db.suppressions).bind Suppression.bounceType ≠ some .soft)
      | _ => true
    decidable_of_iff (files = true) (by
      show _ ↔ ∀ d, s.phase? t = some (.decided d) → d.finalKind = .soft → _ ≠ _
      dsimp only [files]
      cases hp : s.phase? t with
      | none => exact iff_of_true rfl fun d hd => by cases hd
      | some p =>
        cases p with
        | decided d =>
          refine decide_eq_true_iff.trans ⟨fun h d' hd' => ?_, fun h => h d rfl⟩
          cases hd'
          exact h
        | _ => exact iff_of_true rfl fun d hd => by cases hd)
  | .receive .. | .look _ | .decide _ | .mark _ | .commit _ | .rollback _ | .claim .. | .finish ..
  | .tick _ => isTrue trivial

/-- The state after a run. -/
def handled (suppressions : Suppressions) (email : Emails.EmailRow) (now : Time)
    (actions : List Action) : State :=
  Run.run (step toLowerCase) (start suppressions email now) actions

/-- **What concurrent notifications leave behind.** -/
structure HandlesDsns (suppressions : Suppressions) (email : Emails.EmailRow) (now : Time)
    (actions : List Action) : Prop where
  /-- The suppressions are those of the bounces one after the other, in some order. -/
  sequential : ∃ order : List Entry,
    order.Perm (handled toLowerCase suppressions email now actions).db.log ∧
    (handled toLowerCase suppressions email now actions).db.suppressions =
      order.foldl (Entry.apply toLowerCase) suppressions
  /-- Two soft bounces within the window leave a permanent suppression. -/
  escalates : (handled toLowerCase suppressions email now actions).db.log.Pairwise fun a b =>
    ∀ f g, a = .bounce f → b = .bounce g → f.dsn.key toLowerCase = g.dsn.key toLowerCase →
      g.lookedAt < f.decidedAt + SOFT_BOUNCE_WINDOW_MS →
      Permanent ((handled toLowerCase suppressions email now actions).db.suppressions.find?
        (g.dsn.key toLowerCase))
  /-- Every step moves the status of the email as it may, and a policy notification suppresses
  nobody. -/
  orderly : Run.Along (step toLowerCase) (Orderly toLowerCase) (start suppressions email now) actions
  /-- Policy notifications are announced once. -/
  once : failures (handled toLowerCase suppressions email now actions).db ≤ 1

variable {suppressions : Suppressions} {email : Emails.EmailRow} {now : Time} {actions : List Action}

/-- **A run in which no soft bounce is filed over a soft suppression its call has not seen** handles
the notifications as if one after the other. -/
theorem handlesDsns_of_undisturbed
    (h : Run.Along (step toLowerCase) (Undisturbed toLowerCase) (start suppressions email now) actions) :
    HandlesDsns toLowerCase suppressions email now actions := by
  have hinv : BounceInv toLowerCase suppressions (handled toLowerCase suppressions email now actions) :=
    Run.invariant _ (fun _ _ hs hu => bounceInv_step hs hu) (bounceInv_start email now) h
  have hemail : EmailInv toLowerCase (handled toLowerCase suppressions email now actions) :=
    Run.invariant (EmailInv toLowerCase) (fun _ a hs _ => emailInv_step hs a)
      (emailInv_start email now) h
  refine ⟨⟨_, List.Perm.refl _, hinv.serial⟩, hinv.escalated, ?_, ?_⟩
  · exact Run.Along.of_invariant (EmailInv toLowerCase) (fun _ a hs _ => emailInv_step hs a)
      (fun _ a hs _ => orderly_step hs a) (emailInv_start email now) h
  · rcases hemail.announced with h0 | ⟨h1, _⟩
    · exact h0.le.trans Nat.one_pos.le
    · exact h1.le

end Result

/-! ## Two soft bounces of one recipient -/

/-- An email that was sent. -/
def sentEmail : Emails.EmailRow where
  id := "msg_1"
  apiKeyId := "key_1"
  fromAddress := "s@x.org"
  toAddress := "a@y.org"
  cc := none
  bcc := none
  subject := "Hello"
  tags := none
  status := .sent
  attempts := 1
  lastError := none
  messageId := some "<1@x.org>"
  deliveryState := none
  sentAt := some 0
  nextAttemptAt := 0
  lockedBy := none
  leaseUntil := none
  createdAt := 0
  updatedAt := 0
  deletedAt := none

/-- Its recipient's mailbox is full. -/
def mailboxFull : Dsn where
  parsed := ⟨.soft, "4.2.2", some "452 4.2.2 Mailbox full"⟩
  binding := ⟨⟨"msg_1", "key_1", none⟩, "a@y.org"⟩

/-- One call from its reading to its commit. -/
def wholeCall (t : ℕ) (id : Text) : List Action := [.look t, .decide t, .file t id, .mark t, .commit t]

/-- The second notification is read an hour after the first was handled. -/
def inTurn : List Action :=
  [.receive 1 mailboxFull] ++ wholeCall 1 "sup_1" ++
    [.tick 3600000, .receive 2 mailboxFull] ++ wholeCall 2 "sup_2"

/-- Both notifications come at once, and both calls have read before either files. -/
def atOnce : List Action :=
  [.receive 1 mailboxFull, .receive 2 mailboxFull, .look 1, .look 2] ++ wholeCall 1 "sup_1" ++
    wholeCall 2 "sup_2"

/-- In turn, the second bounce escalates. -/
theorem handlesDsns_inTurn :
    HandlesDsns Text.asciiLower Table.empty sentEmail 0 inTurn ∧
      (((handled Text.asciiLower Table.empty sentEmail 0 inTurn).db.suppressions.find?
        (mailboxFull.key Text.asciiLower)).map Suppression.expiresAt) = some none :=
  ⟨handlesDsns_of_undisturbed Text.asciiLower (by decide +kernel), by decide +kernel⟩

/-- At once, neither does, and no order of the two explains the suppression that is left. -/
theorem not_handlesDsns_atOnce :
    ¬HandlesDsns Text.asciiLower Table.empty sentEmail 0 atOnce ∧
      (((handled Text.asciiLower Table.empty sentEmail 0 atOnce).db.suppressions.find?
        (mailboxFull.key Text.asciiLower)).map Suppression.expiresAt) = some (some 86400000) := by
  have hleft : (((handled Text.asciiLower Table.empty sentEmail 0 atOnce).db.suppressions.find?
      (mailboxFull.key Text.asciiLower)).map Suppression.expiresAt) = some (some 86400000) := by
    decide +kernel
  refine ⟨fun h => ?_, hleft⟩
  obtain ⟨order, hperm, hserial⟩ := h.sequential
  have horder : order ∈ [(handled Text.asciiLower Table.empty sentEmail 0 atOnce).db.log,
      (handled Text.asciiLower Table.empty sentEmail 0 atOnce).db.log.reverse] := by
    have htwo : (handled Text.asciiLower Table.empty sentEmail 0 atOnce).db.log.length = 2 := by
      decide +kernel
    obtain ⟨a, b, hlog⟩ := List.length_eq_two.mp htwo
    rw [hlog] at hperm ⊢
    rcases List.perm_pair.mp hperm with rfl | rfl
    · exact List.mem_cons_self
    · exact List.mem_cons_of_mem _ List.mem_cons_self
  have hall : ∀ order ∈ [(handled Text.asciiLower Table.empty sentEmail 0 atOnce).db.log,
      (handled Text.asciiLower Table.empty sentEmail 0 atOnce).db.log.reverse],
      ((order.foldl (Entry.apply Text.asciiLower) Table.empty).find?
        (mailboxFull.key Text.asciiLower)).map Suppression.expiresAt = some none := by
    decide +kernel
  rw [hserial, hall order horder] at hleft
  cases hleft

end BunMail.BounceHandler
