import BunMail.Emails.QueueClaim
import BunMail.Lib.FairPick

/-!
# Fair claims

`queue-claim.service.ts`: a claim of `n` rows takes as candidates the first `n` due rows of every API
key and the first `n` rows of the table whose lease expired, ranks them within their key, and takes the
lowest ranks first.  Nothing else claims at the same time, so no row is locked.

The rows that contend for the batch are the due rows and those first `n` expired ones.  Among them the
batch is shared round-robin.
-/

namespace BunMail.Emails

/-- The tables a claim reads.  `emails.api_key_id` references `api_keys.id`. -/
structure ClaimTables where
  apiKeys : List Text
  emails : Table EmailRow.id
  apiKeys_nodup : apiKeys.Nodup
  references : ∀ row ∈ emails.rows, row.apiKeyId ∈ apiKeys

/-! ## Orders -/

/-- `ORDER BY next_attempt_at, created_at`. -/
def DueLe (a b : EmailRow) : Prop :=
  a.nextAttemptAt < b.nextAttemptAt ∨ a.nextAttemptAt = b.nextAttemptAt ∧ a.createdAt ≤ b.createdAt

/-- `ORDER BY next_attempt_at, created_at, id`. -/
def FairLe (a b : EmailRow) : Prop :=
  a.nextAttemptAt < b.nextAttemptAt ∨ a.nextAttemptAt = b.nextAttemptAt ∧
    (a.createdAt < b.createdAt ∨ a.createdAt = b.createdAt ∧ Text.bytesLe a.id b.id = true)

instance : DecidableRel DueLe := fun _ _ => inferInstanceAs (Decidable (_ ∨ _ ∧ _))

instance : DecidableRel FairLe := fun _ _ => inferInstanceAs (Decidable (_ ∨ _ ∧ (_ ∨ _ ∧ _)))

instance : Std.Total DueLe where
  total a b := by
    unfold DueLe
    rcases lt_trichotomy a.nextAttemptAt b.nextAttemptAt with h | h | h
    · exact .inl (.inl h)
    · exact (le_total a.createdAt b.createdAt).imp (fun hle => .inr ⟨h, hle⟩) fun hle =>
        .inr ⟨h.symm, hle⟩
    · exact .inr (.inl h)

instance : IsTrans EmailRow DueLe where
  trans a b c := by
    unfold DueLe
    rintro (hab | ⟨hab, hle⟩) (hbc | ⟨hbc, hle'⟩)
    · exact .inl (hab.trans hbc)
    · exact .inl (hbc ▸ hab)
    · exact .inl (hab ▸ hbc)
    · exact .inr ⟨hab.trans hbc, hle.trans hle'⟩

instance : Std.Total FairLe where
  total a b := by
    unfold FairLe
    rcases lt_trichotomy a.nextAttemptAt b.nextAttemptAt with h | h | h
    · exact .inl (.inl h)
    · rcases lt_trichotomy a.createdAt b.createdAt with h' | h' | h'
      · exact .inl (.inr ⟨h, .inl h'⟩)
      · exact (Text.bytesLe_total a.id b.id).imp (fun hle => .inr ⟨h, .inr ⟨h', hle⟩⟩) fun hle =>
          .inr ⟨h.symm, .inr ⟨h'.symm, hle⟩⟩
      · exact .inr (.inr ⟨h.symm, .inl h'⟩)
    · exact .inr (.inl h)

instance : IsTrans EmailRow FairLe where
  trans a b c := by
    unfold FairLe
    rintro (hab | ⟨hab, hab' | ⟨hab', hle⟩⟩) (hbc | ⟨hbc, hbc' | ⟨hbc', hle'⟩⟩)
    · exact .inl (hab.trans hbc)
    · exact .inl (hbc ▸ hab)
    · exact .inl (hbc ▸ hab)
    · exact .inl (hab ▸ hbc)
    · exact .inr ⟨hab.trans hbc, .inl (hab'.trans hbc')⟩
    · exact .inr ⟨hab.trans hbc, .inl (hbc' ▸ hab')⟩
    · exact .inl (hab ▸ hbc)
    · exact .inr ⟨hab.trans hbc, .inl (hab' ▸ hbc')⟩
    · exact .inr ⟨hab.trans hbc, .inr ⟨hab'.trans hbc', Text.bytesLe_trans hle hle'⟩⟩

/-! ## The claim -/

/-- The `WHERE` of the due rows, without the key. -/
def isDue (now : Time) (row : EmailRow) : Bool :=
  row.status = .queued && row.deletedAt.isNone && row.nextAttemptAt ≤ now

/-- The `WHERE` of the rows whose lease expired. -/
def isExpired (now : Time) (row : EmailRow) : Bool :=
  row.status = .sending && row.deletedAt.isNone && leaseExpired now row

section Claim

variable (tables : ClaimTables) (workerId : Text) (now appNow : Time) (n : ℕ)

/-- `per_key`: the first `n` due rows of a key. -/
def perKey (key : Text) : List EmailRow :=
  FairPick.first DueLe n (FairPick.ofKey EmailRow.apiKeyId key (tables.emails.rows.filter (isDue now)))

/-- `expired`: the first `n` rows whose lease expired. -/
def expired : List EmailRow := FairPick.first DueLe n (tables.emails.rows.filter (isExpired now))

/-- `due`: the candidates. -/
def due : List EmailRow := tables.apiKeys.flatMap (perKey tables now n) ++ expired tables now n

/-- `fairDueEmailIds`. -/
def fairDueEmailIds : List Text :=
  (FairPick.pick FairLe EmailRow.apiKeyId n (due tables now n)).map EmailRow.id

/-- What a claim sets on a row, and the row it returns. -/
def taken (row : EmailRow) : ClaimedEmail :=
  { row with
    status := .sending
    attempts := row.attempts + 1
    lockedBy := some workerId
    leaseUntil := some (now + LEASE_MS)
    updatedAt := appNow
    ageMs := (now : ℚ) - row.createdAt }

/-- The rows of the batch, as they were. -/
def batchRows : List EmailRow :=
  tables.emails.rows.filter fun row => row.id ∈ fairDueEmailIds tables now n

/-- `claimNextEmails` on the tables: the table afterwards, and the claimed rows. -/
def claimBatch : Table EmailRow.id × List ClaimedEmail :=
  (tables.emails.updateAll (fun row =>
      if row.id ∈ fairDueEmailIds tables now n then (taken workerId now appNow row).toEmailRow
      else row) fun _ => by split_ifs <;> rfl,
    (batchRows tables now n).map (taken workerId now appNow))

end Claim

/-! ## Candidates -/

/-- One row is due before another. -/
def DueBefore (a b : EmailRow) : Prop := ¬ DueLe b a

instance : DecidableRel DueBefore := fun _ _ => inferInstanceAs (Decidable (¬ _))

theorem not_fairLe_of_dueBefore {a b : EmailRow} (h : DueBefore a b) : ¬ FairLe b a := by
  unfold DueBefore DueLe at h
  unfold FairLe
  rintro (hlt | ⟨heq, hlt | ⟨heq', _⟩⟩)
  · exact h (.inl hlt)
  · exact h (.inr ⟨heq, hlt.le⟩)
  · exact h (.inr ⟨heq, heq'.le⟩)

theorem claimable_iff {now : Time} {row : EmailRow} :
    claimable now row = true ↔ isDue now row = true ∨ isExpired now row = true := by
  unfold claimable isDue isExpired
  simp only [Bool.and_eq_true, Bool.or_eq_true, decide_eq_true_eq]
  tauto

theorem not_isDue_and_isExpired {now : Time} {row : EmailRow} (hd : isDue now row = true)
    (he : isExpired now row = true) : False := by
  unfold isDue at hd
  unfold isExpired at he
  simp only [Bool.and_eq_true, decide_eq_true_eq] at hd he
  exact absurd (hd.1.1.symm.trans he.1.1) (by decide)

section Candidates

variable {tables : ClaimTables} {now : Time} {n : ℕ} {row : EmailRow}

theorem nodup_rows (t : Table EmailRow.id) : t.rows.Nodup := t.unique.of_map _

theorem mem_perKey {key : Text} (h : row ∈ perKey tables now n key) :
    row ∈ tables.emails.rows ∧ isDue now row = true ∧ row.apiKeyId = key := by
  obtain ⟨hmem, hkey⟩ := FairPick.mem_ofKey.mp (FairPick.mem_of_mem_first h)
  exact ⟨(List.mem_filter.mp hmem).1, (List.mem_filter.mp hmem).2, hkey⟩

theorem mem_expired (h : row ∈ expired tables now n) :
    row ∈ tables.emails.rows ∧ isExpired now row = true :=
  List.mem_filter.mp (FairPick.mem_of_mem_first h)

theorem mem_due : row ∈ due tables now n ↔
    (∃ key ∈ tables.apiKeys, row ∈ perKey tables now n key) ∨ row ∈ expired tables now n := by
  unfold due
  rw [List.mem_append, List.mem_flatMap]

/-- The candidates are claimable rows. -/
theorem claimable_of_mem_due (h : row ∈ due tables now n) :
    row ∈ tables.emails.rows ∧ claimable now row = true := by
  rcases mem_due.mp h with ⟨key, _, h⟩ | h
  · exact ⟨(mem_perKey h).1, claimable_iff.mpr (.inl (mem_perKey h).2.1)⟩
  · exact ⟨(mem_expired h).1, claimable_iff.mpr (.inr (mem_expired h).2)⟩

theorem nodup_perKey (key : Text) : (perKey tables now n key).Nodup :=
  FairPick.nodup_first (((nodup_rows tables.emails).filter _).filter _)

theorem nodup_due : (due tables now n).Nodup := by
  refine List.nodup_append.mpr ⟨List.nodup_flatMap.mpr ⟨fun key _ => nodup_perKey key, ?_⟩,
    FairPick.nodup_first ((nodup_rows tables.emails).filter _), ?_⟩
  · refine tables.apiKeys_nodup.imp fun hne row h h' => hne ?_
    exact (mem_perKey h).2.2.symm.trans (mem_perKey h').2.2
  · rintro row h row' h' rfl
    obtain ⟨key, _, h⟩ := List.mem_flatMap.mp h
    exact not_isDue_and_isExpired (mem_perKey h).2.1 (mem_expired h').2

/-- The candidates of a key hold its first due rows. -/
theorem perKey_subset (hrow : row ∈ tables.emails.rows) :
    perKey tables now n row.apiKeyId ⊆
      FairPick.ofKey EmailRow.apiKeyId row.apiKeyId (due tables now n) := by
  intro r hr
  exact FairPick.mem_ofKey.mpr
    ⟨mem_due.mpr (.inl ⟨_, tables.references row hrow, hr⟩), (mem_perKey hr).2.2⟩

theorem length_perKey_le (hrow : row ∈ tables.emails.rows) :
    (perKey tables now n row.apiKeyId).length ≤
      (FairPick.ofKey EmailRow.apiKeyId row.apiKeyId (due tables now n)).length :=
  (List.subperm_of_subset (nodup_perKey _) (perKey_subset hrow)).length_le

/-- A due row is a candidate, unless its key has `n` candidates. -/
theorem mem_due_of_isDue (hrow : row ∈ tables.emails.rows) (hdue : isDue now row = true)
    (hout : row ∉ due tables now n) : (perKey tables now n row.apiKeyId).length = n := by
  have hmem : row ∈ FairPick.ofKey EmailRow.apiKeyId row.apiKeyId
      (tables.emails.rows.filter (isDue now)) :=
    FairPick.mem_ofKey.mpr ⟨List.mem_filter.mpr ⟨hrow, hdue⟩, rfl⟩
  unfold perKey
  rw [FairPick.length_first]
  refine min_eq_left (not_lt.mp fun hlt => hout ?_)
  exact mem_due.mpr (.inl ⟨_, tables.references row hrow,
    (FairPick.mem_first_of_length_le hlt.le).mpr hmem⟩)

/-- An expired row is a candidate, unless there are `n` expired ones. -/
theorem length_expired (hrow : row ∈ tables.emails.rows) (hexpired : isExpired now row = true)
    (hout : row ∉ due tables now n) : (expired tables now n).length = n := by
  unfold expired
  rw [FairPick.length_first]
  refine min_eq_left (not_lt.mp fun hlt => hout ?_)
  exact mem_due.mpr (.inr ((FairPick.mem_first_of_length_le hlt.le).mpr
    (List.mem_filter.mpr ⟨hrow, hexpired⟩)))

/-- **The candidates fill the batch as far as there are claimable rows.** -/
theorem min_length_due :
    min n (due tables now n).length = min n (tables.emails.rows.filter (claimable now)).length := by
  have hsub : due tables now n ⊆ tables.emails.rows.filter (claimable now) := fun row h =>
    List.mem_filter.mpr (claimable_of_mem_due h)
  have hle := (List.subperm_of_subset nodup_due hsub).length_le
  by_cases hn : n ≤ (due tables now n).length
  · rw [min_eq_left hn, min_eq_left (hn.trans hle)]
  · have hall : tables.emails.rows.filter (claimable now) ⊆ due tables now n := by
      intro row h
      obtain ⟨hrow, hclaimable⟩ := List.mem_filter.mp h
      by_contra hout
      refine hn ?_
      rcases claimable_iff.mp hclaimable with hdue | hexpired
      · calc n = (perKey tables now n row.apiKeyId).length :=
              (mem_due_of_isDue hrow hdue hout).symm
          _ ≤ _ := length_perKey_le hrow
          _ ≤ (due tables now n).length := List.length_filter_le _ _
      · calc n = (expired tables now n).length := (length_expired hrow hexpired hout).symm
          _ ≤ (due tables now n).length := by
            unfold due
            rw [List.length_append]
            exact Nat.le_add_left _ _
    have hge := (List.subperm_of_subset ((nodup_rows tables.emails).filter _) hall).length_le
    rw [le_antisymm hle hge]

end Candidates

/-! ## Fair shares -/

/-- Among the eligible rows, the claimed ones are the first of each key, and no key gets two rows more
than another that has more. -/
structure SharedFairly (eligible : EmailRow → Bool) (rows claimed : List EmailRow) : Prop where
  first : ∀ row ∈ claimed, ∀ row' ∈ rows, eligible row' = true → row'.apiKeyId = row.apiKeyId →
    DueBefore row' row → row' ∈ claimed
  even : ∀ (a b : Text) (k : ℕ), k + 1 ≤ (FairPick.ofKey EmailRow.apiKeyId a claimed).length →
    min k (FairPick.ofKey EmailRow.apiKeyId b (rows.filter eligible)).length ≤
      (FairPick.ofKey EmailRow.apiKeyId b claimed).length

section Shares

variable (tables : ClaimTables) (now : Time) (n : ℕ)

/-- The expired rows that are due before a row. -/
def expiredBefore (row : EmailRow) : List EmailRow :=
  tables.emails.rows.filter fun r => isExpired now r && decide (DueBefore r row)

/-- A row that contends for a batch of `n`: a due row, or an expired one that fewer than `n` expired
rows come before. -/
def contends (row : EmailRow) : Bool :=
  isDue now row || isExpired now row && decide ((expiredBefore tables now row).length < n)

/-- The due times of the claimable rows are distinct. -/
def DistinctDueTimes : Prop :=
  ((tables.emails.rows.filter (claimable now)).map fun row =>
    (row.nextAttemptAt, row.createdAt)).Nodup

variable {tables now n}

theorem dueBefore_of_ne {a b : EmailRow} (h : DistinctDueTimes tables now)
    (ha : a ∈ tables.emails.rows ∧ claimable now a = true)
    (hb : b ∈ tables.emails.rows ∧ claimable now b = true) (hle : DueLe a b) (hne : a ≠ b) :
    DueBefore a b := by
  intro hle'
  refine hne (List.inj_on_of_nodup_map h (List.mem_filter.mpr ha) (List.mem_filter.mpr hb) ?_)
  rcases hle with hlt | ⟨heq, hcreated⟩ <;> rcases hle' with hlt' | ⟨heq', hcreated'⟩
  · exact absurd hlt hlt'.not_gt
  · exact absurd heq' hlt.ne'
  · exact absurd heq hlt'.ne'
  · exact Prod.ext heq (le_antisymm hcreated hcreated')

/-- The contending expired rows are candidates. -/
theorem mem_due_of_contends {row : EmailRow} (h : DistinctDueTimes tables now)
    (hrow : row ∈ tables.emails.rows) (hexpired : isExpired now row = true)
    (hfew : (expiredBefore tables now row).length < n) : row ∈ due tables now n := by
  by_contra hout
  have hlength := length_expired hrow hexpired hout
  have hnot : row ∉ expired tables now n := fun hmem => hout (mem_due.mpr (.inr hmem))
  have hsub : expired tables now n ⊆ expiredBefore tables now row := by
    intro r hr
    obtain ⟨hmem, hexpired'⟩ := mem_expired hr
    have hle : DueLe r row := FairPick.not_before_of_notMem_first hr
      (List.mem_filter.mpr ⟨hrow, hexpired⟩) hnot
    have hne : r ≠ row := fun heq => hnot (heq ▸ hr)
    have hbefore := dueBefore_of_ne h ⟨hmem, claimable_iff.mpr (.inr hexpired')⟩
      ⟨hrow, claimable_iff.mpr (.inr hexpired)⟩ hle hne
    refine List.mem_filter.mpr ⟨hmem, ?_⟩
    rw [hexpired', Bool.true_and]
    exact decide_eq_true hbefore
  have hnodup : (expired tables now n).Nodup :=
    FairPick.nodup_first ((nodup_rows tables.emails).filter _)
  have hle := (List.subperm_of_subset hnodup hsub).length_le
  omega

theorem mem_batchRows {row : EmailRow} : row ∈ batchRows tables now n ↔
    row ∈ FairPick.pick FairLe EmailRow.apiKeyId n (due tables now n) := by
  unfold batchRows fairDueEmailIds
  rw [List.mem_filter, decide_eq_true_iff, List.mem_map]
  constructor
  · rintro ⟨hrow, row', hpick, hid⟩
    have hrow' := (claimable_of_mem_due (FairPick.mem_of_mem_first hpick)).1
    rwa [← Table.eq_of_key_eq hrow' hrow hid]
  · intro hpick
    exact ⟨(claimable_of_mem_due (FairPick.mem_of_mem_first hpick)).1, row, hpick, rfl⟩

/-- The batch is the pick, in the order of the table. -/
theorem perm_batchRows : (batchRows tables now n).Perm
    (FairPick.pick FairLe EmailRow.apiKeyId n (due tables now n)) :=
  (List.perm_ext_iff_of_nodup ((nodup_rows tables.emails).filter _)
    (FairPick.nodup_first nodup_due)).mpr fun _ => mem_batchRows

/-- **The claimed rows of a key are its first ones.** -/
theorem batchRows_first (h : DistinctDueTimes tables now) {row row' : EmailRow}
    (hrow : row ∈ batchRows tables now n) (hrow' : row' ∈ tables.emails.rows)
    (hcontends : contends tables now n row' = true) (hkey : row'.apiKeyId = row.apiKeyId)
    (hbefore : DueBefore row' row) : row' ∈ batchRows tables now n := by
  have hpick := mem_batchRows.mp hrow
  by_cases hdue : row' ∈ due tables now n
  · exact mem_batchRows.mpr
      (FairPick.mem_pick_of_before hpick hdue hkey (not_fairLe_of_dueBefore hbefore))
  · exfalso
    unfold contends at hcontends
    rw [Bool.or_eq_true, Bool.and_eq_true, decide_eq_true_iff] at hcontends
    rcases hcontends with hisDue | ⟨hexpired, hfew⟩
    · -- the `n` candidates that keep `row'` out come before `row` as well: the pick has no room
      have hlength := mem_due_of_isDue hrow' hisDue hdue
      have hearlier : ∀ r ∈ perKey tables now n row'.apiKeyId, DueBefore r row := by
        intro r hr hle
        have hnot : row' ∉ perKey tables now n row'.apiKeyId := fun hmem =>
          hdue (mem_due.mpr (.inl ⟨_, tables.references row' hrow', hmem⟩))
        have hle' : DueLe r row' := FairPick.not_before_of_notMem_first hr
          (FairPick.mem_ofKey.mpr ⟨List.mem_filter.mpr ⟨hrow', hisDue⟩, rfl⟩) hnot
        exact hbefore (IsTrans.trans _ _ _ hle hle')
      have hsub : row :: perKey tables now n row'.apiKeyId ⊆
          FairPick.pick FairLe EmailRow.apiKeyId n (due tables now n) := by
        refine List.cons_subset.mpr ⟨hpick, fun r hr => ?_⟩
        have hmem := FairPick.mem_ofKey.mp (perKey_subset hrow' hr)
        exact FairPick.mem_pick_of_before hpick hmem.1 (hmem.2.trans hkey)
          (not_fairLe_of_dueBefore (hearlier r hr))
      have hnodup : (row :: perKey tables now n row'.apiKeyId).Nodup := by
        refine List.nodup_cons.mpr ⟨fun hmem => hearlier row hmem ?_, nodup_perKey _⟩
        exact (Std.Total.total (r := DueLe) row row).elim id id
      have hle := (List.subperm_of_subset hnodup hsub).length_le
      have hpickle : (FairPick.pick FairLe EmailRow.apiKeyId n (due tables now n)).length ≤ n := by
        unfold FairPick.pick
        rw [FairPick.length_first]
        exact min_le_left _ _
      rw [List.length_cons, hlength] at hle
      omega
    · exact hdue (mem_due_of_contends h hrow' hexpired hfew)

/-- The candidates of a key are all its contenders, unless it has `n` candidates. -/
theorem min_length_contends (h : DistinctDueTimes tables now) {k : ℕ} (hk : k ≤ n) (b : Text) :
    min k (FairPick.ofKey EmailRow.apiKeyId b
        (tables.emails.rows.filter (contends tables now n))).length ≤
      (FairPick.ofKey EmailRow.apiKeyId b (due tables now n)).length := by
  by_cases hlt : k ≤ (FairPick.ofKey EmailRow.apiKeyId b (due tables now n)).length
  · exact (min_le_left _ _).trans hlt
  · refine (min_le_right _ _).trans ?_
    have hsub : FairPick.ofKey EmailRow.apiKeyId b
        (tables.emails.rows.filter (contends tables now n)) ⊆
        FairPick.ofKey EmailRow.apiKeyId b (due tables now n) := by
      intro row hmem
      obtain ⟨hfilter, rfl⟩ := FairPick.mem_ofKey.mp hmem
      obtain ⟨hrow, hcontends⟩ := List.mem_filter.mp hfilter
      refine FairPick.mem_ofKey.mpr ⟨?_, rfl⟩
      unfold contends at hcontends
      rw [Bool.or_eq_true, Bool.and_eq_true, decide_eq_true_iff] at hcontends
      rcases hcontends with hisDue | ⟨hexpired, hfew⟩
      · by_contra hout
        have hlength := mem_due_of_isDue hrow hisDue hout
        have hle := @length_perKey_le _ now n _ hrow
        omega
      · exact mem_due_of_contends h hrow hexpired hfew
    have hnodup : (FairPick.ofKey EmailRow.apiKeyId b
        (tables.emails.rows.filter (contends tables now n))).Nodup :=
      ((nodup_rows tables.emails).filter _).filter _
    exact (List.subperm_of_subset hnodup hsub).length_le

/-- Each row of a batch is claimed as a row is claimed on its own. -/
theorem map_claimNextEmails (workerId : Text) (appNow : Time) :
    (batchRows tables now n).map (claimNextEmails workerId now appNow) =
      (claimBatch tables workerId now appNow n).2.map some := by
  unfold claimBatch
  rw [List.map_map]
  refine List.map_congr_left fun row hrow => ?_
  exact if_pos (claimable_of_mem_due (FairPick.mem_of_mem_first (mem_batchRows.mp hrow))).2

end Shares

/-! ## Expired rows crowd each other out -/

/-- A row whose lease expired at the instant 50. -/
def expiredRow (id key : Text) (dueAt : Time) : EmailRow :=
  { id, apiKeyId := key, fromAddress := [], toAddress := [], cc := none, bcc := none, subject := []
    tags := none, status := .sending, attempts := 1, lastError := none, messageId := none
    deliveryState := none, sentAt := none, nextAttemptAt := dueAt, lockedBy := none
    leaseUntil := some 50, createdAt := 0, updatedAt := 0, deletedAt := none }

/-- Two expired rows of one key, and a later one of another. -/
def crowdedTables : ClaimTables where
  apiKeys := ["a".toList, "b".toList]
  emails := ⟨[expiredRow "1".toList "a".toList 1, expiredRow "2".toList "a".toList 2,
    expiredRow "3".toList "b".toList 3], by decide⟩
  apiKeys_nodup := by decide
  references := by decide

end BunMail.Emails
