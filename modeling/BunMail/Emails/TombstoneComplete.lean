import BunMail.Emails.Tombstone

/-!
# Tombstones are complete when no row moves

The snapshot `SELECT` and the `DELETE` of one hard delete evaluate the same `WHERE` at two moments.
A row that enters it in between is deleted without a tombstone; a row that leaves it stays, with a
tombstone and without its attachment bytes.  Apart from that, the primary key of the tombstones
keeps concurrent hard deletes apart, and the tables are complete in every committed state.
-/

namespace BunMail.Emails.Trash

open Transactions Run

/-! ## The property and its condition -/

/-- The tables `m`, reached from `m₀`: every deleted email has exactly one tombstone, no email has
one, and no email that can still be sent has lost bytes. -/
structure Complete (m₀ m : Mailbox) : Prop where
  deleted : ∀ r ∈ m₀.emails.rows, r.id ∉ m.emails.keys →
    (m.tombstones.rows.filter fun k => k.id = r.id).length = 1
  present : ∀ r ∈ m.emails.rows, r.id ∉ m.tombstones.keys
  bytes : ∀ r ∈ m.emails.rows, r.status.final = false →
    ∀ a ∈ m.attachments, a.emailId = r.id → a.content.isSome

/-- The rows that match when the `DELETE` runs are those that the `SELECT` read. -/
def UnmovedAt (s : State) (t : ℕ) : Phase → Prop
  | .deleting call ts _ candidates =>
    s.grants locks t (cascade s.db call candidates) = true →
      ∀ r ∈ s.db.emails.rows, call.removes candidates r = true ↔ r.id ∈ idsOf ts
  | .selected .. | .listed .. | .tombstoned .. | .dropped .. | .returned _ | .rolledBack => True

instance (s : State) (t : ℕ) : (p : Phase) → Decidable (UnmovedAt s t p)
  | .deleting call ts _ candidates =>
    inferInstanceAs (Decidable (s.grants locks t (cascade s.db call candidates) = true →
      ∀ r ∈ s.db.emails.rows, call.removes candidates r = true ↔ r.id ∈ idsOf ts))
  | .selected .. | .listed .. | .tombstoned .. | .dropped .. | .returned _ | .rolledBack =>
    isTrue trivial

/-- The action is not a `DELETE` whose rows have moved since its `SELECT`. -/
def Unmoved (s : State) : Action → Prop
  | .next t => (s.phase? t).elim True (UnmovedAt s t)
  | .deleteEmailsWithTombstones .. | .fail _ | .trashEmail .. | .restoreEmail .. => True

instance : (o : Option Phase) → (s : State) → (t : ℕ) → Decidable (o.elim True (UnmovedAt s t))
  | none, _, _ => isTrue trivial
  | some p, s, t => inferInstanceAs (Decidable (UnmovedAt s t p))

instance (s : State) : (a : Action) → Decidable (Unmoved s a)
  | .next t => inferInstanceAs (Decidable ((s.phase? t).elim True (UnmovedAt s t)))
  | .deleteEmailsWithTombstones .. | .fail _ | .trashEmail .. | .restoreEmail .. => isTrue trivial

/-! ## What a step can do -/

/-- A `DELETE` that takes its rows away, and commits. -/
def Deletes (s : State) (t : ℕ) (call : DeleteCall) (ts : List EmailTombstone)
    (files candidates : List Text) : Prop :=
  s.phase? t = some (.deleting call ts files candidates) ∧
    s.grants locks t (cascade s.db call candidates) = true

theorem unmoved_next {s : State} {t : ℕ} {call : DeleteCall} {ts : List EmailTombstone}
    {files candidates : List Text} (hd : Deletes s t call ts files candidates) :
    Unmoved s (.next t) ↔
      ∀ r ∈ s.db.emails.rows, call.removes candidates r = true ↔ r.id ∈ idsOf ts := by
  rw [Unmoved, hd.1, Option.elim_some, UnmovedAt]
  exact ⟨fun h => h hd.2, fun h _ => h⟩

/-- Everything one statement of a transaction can do to the tables. -/
theorem nextStatement_cases {s : State} {t : ℕ} {p : Phase} (hp : s.phase? t = some p) :
    (nextStatement s t p).db = s.db ∧ UnmovedAt s t p ∨
      ∃ call ts files candidates, Deletes s t call ts files candidates ∧
        (nextStatement s t p).db = writes (.deleting call ts files candidates) s.db := by
  cases p with
  | selected call rows => exact .inl ⟨rfl, trivial⟩
  | listed call ts =>
    rw [nextStatement]
    split_ifs
    · exact .inl ⟨rfl, trivial⟩
    · exact .inl ⟨Store.db_enter, trivial⟩
  | tombstoned call ts => exact .inl ⟨Store.db_enter, trivial⟩
  | dropped call ts files => exact .inl ⟨rfl, trivial⟩
  | deleting call ts files candidates =>
    rw [nextStatement]
    split_ifs with hg
    · exact .inr ⟨call, ts, files, candidates, ⟨hp, hg⟩, rfl⟩
    · exact .inl ⟨rfl, fun h => absurd h hg⟩
  | returned deleted => exact .inl ⟨rfl, trivial⟩
  | rolledBack => exact .inl ⟨rfl, trivial⟩

/-- Everything an action can do to the tables: nothing, a committed `DELETE` with the writes
before it, or one `deleted_at`. -/
theorem step_cases (s : State) (a : Action) :
    (step s a).db = s.db ∧ Unmoved s a ∨
      (∃ t call ts files candidates, a = .next t ∧ Deletes s t call ts files candidates ∧
        (step s a).db = writes (.deleting call ts files candidates) s.db) ∨
      ∃ id apiKeyId from_ to_,
        (step s a).db = setDeletedAt id apiKeyId from_ to_ s.db ∧ Unmoved s a := by
  cases a with
  | deleteEmailsWithTombstones t call =>
    rw [step]
    cases s.phase? t <;> exact .inl ⟨rfl, trivial⟩
  | next t =>
    rw [step, Unmoved]
    cases ht : s.phase? t with
    | none => exact .inl ⟨rfl, trivial⟩
    | some p =>
      refine (nextStatement_cases ht).imp_right fun ⟨call, ts, files, candidates, hd, h⟩ => ?_
      exact .inl ⟨t, call, ts, files, candidates, rfl, hd, h⟩
  | fail t =>
    rw [step]
    split_ifs <;> exact .inl ⟨rfl, trivial⟩
  | trashEmail id apiKeyId now => exact .inr (.inr ⟨id, apiKeyId, _, _, rfl, trivial⟩)
  | restoreEmail id apiKeyId => exact .inr (.inr ⟨id, apiKeyId, _, _, rfl, trivial⟩)

/-! ## The writes -/

section Writes

variable {call : DeleteCall} {ts : List EmailTombstone} {files candidates : List Text} {m : Mailbox}

theorem mem_emails_writes {r : EmailRow} :
    r ∈ (writes (.deleting call ts files candidates) m).emails.rows ↔
      r ∈ m.emails.rows ∧ call.removes candidates r = false := Table.mem_deleteWhere

theorem mem_tombstones_writes {id : Text} :
    id ∈ (writes (.deleting call ts files candidates) m).tombstones.keys ↔
      id ∈ idsOf ts ∨ id ∈ m.tombstones.keys := Table.mem_keys_foldl_upsert

/-- An attachment that is left is as it was, unless its email has a new tombstone. -/
theorem mem_attachments_writes {a : AttachmentRow}
    (h : a ∈ (writes (.deleting call ts files candidates) m).attachments) :
    a.emailId ∈ idsOf ts ∨ a ∈ m.attachments := by
  obtain ⟨b, hb, rfl⟩ := List.mem_map.mp (List.mem_filter.mp h).1
  split_ifs with hid
  · exact .inl hid
  · exact .inr hb

variable {id : Text} {apiKeyId : Option Text} {from_ : Option Time → Bool} {to_ : Option Time}

theorem keys_setDeletedAt : (setDeletedAt id apiKeyId from_ to_ m).emails.keys = m.emails.keys :=
  Table.keys_updateAll _ _ (withDeletedAt_id id apiKeyId from_ to_)

/-- Trashing and restoring touch no other column. -/
theorem mem_setDeletedAt {r : EmailRow}
    (h : r ∈ (setDeletedAt id apiKeyId from_ to_ m).emails.rows) :
    ∃ r₀ ∈ m.emails.rows, r₀.id = r.id ∧ r₀.status = r.status := by
  obtain ⟨r₀, hr₀, rfl⟩ := List.mem_map.mp h
  refine ⟨r₀, hr₀, (withDeletedAt_id ..).symm, ?_⟩
  unfold withDeletedAt
  split_ifs <;> rfl

end Writes

/-! ## The invariant -/

/-- No email appears. -/
def Shrinks (m₀ : Mailbox) (s : State) : Prop := ∀ id ∈ s.db.emails.keys, id ∈ m₀.emails.keys

theorem shrinks_step {m₀ : Mailbox} (s : State) (a : Action) (h : Shrinks m₀ s) :
    Shrinks m₀ (step s a) := by
  intro id hid
  rcases step_cases s a with ⟨he, -⟩ | ⟨t, call, ts, files, candidates, -, -, he⟩ |
    ⟨i, k, f, u, he, -⟩
  · exact h id (by rwa [he] at hid)
  · rw [he] at hid
    obtain ⟨r, hr, rfl⟩ := List.mem_map.mp hid
    exact h r.id (List.mem_map.mpr ⟨r, (mem_emails_writes.mp hr).1, rfl⟩)
  · exact h id (by rwa [he, keys_setDeletedAt] at hid)

section Commit

variable {m₀ m : Mailbox} {call : DeleteCall} {ts : List EmailTombstone}
  {files candidates : List Text}

/-- A `DELETE` of exactly the rows its `SELECT` read keeps the tables complete. -/
theorem Complete.deletes (h : Complete m₀ m)
    (hr : ∀ r ∈ m.emails.rows, call.removes candidates r = true ↔ r.id ∈ idsOf ts) :
    Complete m₀ (writes (.deleting call ts files candidates) m) where
  deleted r₀ hr₀ hk := by
    refine Table.length_filter_key.mpr (mem_tombstones_writes.mpr ?_)
    by_cases hm : r₀.id ∈ m.emails.keys
    · -- still there before: the `DELETE` took it
      obtain ⟨r, hrm, hid⟩ := List.mem_map.mp hm
      have hrem : call.removes candidates r = true := by
        by_contra hrem
        refine hk (List.mem_map.mpr ⟨r, mem_emails_writes.mpr ⟨hrm, ?_⟩, hid⟩)
        exact Bool.eq_false_iff.mpr hrem
      exact .inl (hid ▸ (hr r hrm).mp hrem)
    · exact .inr (Table.length_filter_key.mp (h.deleted r₀ hr₀ hm))
  present r hrm hk := by
    obtain ⟨hm, hrem⟩ := mem_emails_writes.mp hrm
    rcases mem_tombstones_writes.mp hk with hid | hid
    · rw [(hr r hm).mpr hid] at hrem
      cases hrem
    · exact h.present r hm hid
  bytes r hrm hf a ha hid := by
    obtain ⟨hm, hrem⟩ := mem_emails_writes.mp hrm
    rcases mem_attachments_writes ha with hts | ha
    · rw [hid] at hts
      rw [(hr r hm).mpr hts] at hrem
      cases hrem
    · exact h.bytes r hm hf a ha hid

/-- Only such a `DELETE` does. -/
theorem Complete.unmoved (hs : ∀ id ∈ m.emails.keys, id ∈ m₀.emails.keys) (h : Complete m₀ m)
    (h' : Complete m₀ (writes (.deleting call ts files candidates) m)) :
    ∀ r ∈ m.emails.rows, call.removes candidates r = true ↔ r.id ∈ idsOf ts := by
  intro r hr
  constructor
  · intro hrem
    -- no other row has the id, so the email is gone and has a tombstone
    have hgone : r.id ∉ (writes (.deleting call ts files candidates) m).emails.keys := by
      intro hk
      obtain ⟨r', hr', hid⟩ := List.mem_map.mp hk
      obtain ⟨hm', hrem'⟩ := mem_emails_writes.mp hr'
      rw [Table.eq_of_key_eq hm' hr hid, hrem] at hrem'
      cases hrem'
    obtain ⟨r₀, hr₀, hid⟩ := List.mem_map.mp (hs r.id (List.mem_map.mpr ⟨r, hr, rfl⟩))
    have hone := h'.deleted r₀ hr₀ (by rwa [hid])
    rw [hid] at hone
    exact (mem_tombstones_writes.mp (Table.length_filter_key.mp hone)).resolve_right
      (h.present r hr)
  · intro hid
    by_contra hrem
    exact h'.present r (mem_emails_writes.mpr ⟨hr, Bool.eq_false_iff.mpr hrem⟩)
      (mem_tombstones_writes.mpr (.inl hid))

/-- Moving an email to the trash or back keeps the tables complete. -/
theorem Complete.setDeletedAt (h : Complete m₀ m) (id : Text) (apiKeyId : Option Text)
    (from_ : Option Time → Bool) (to_ : Option Time) :
    Complete m₀ (setDeletedAt id apiKeyId from_ to_ m) where
  deleted r₀ hr₀ hk := h.deleted r₀ hr₀ (by rwa [keys_setDeletedAt] at hk)
  present r hr := by
    obtain ⟨r₀, hr₀, hid, -⟩ := mem_setDeletedAt hr
    exact hid ▸ h.present r₀ hr₀
  bytes r hr hf a ha hid := by
    obtain ⟨r₀, hr₀, hid₀, hst⟩ := mem_setDeletedAt hr
    exact h.bytes r₀ hr₀ (hst ▸ hf) a ha (hid.trans hid₀.symm)

end Commit

/-! ## Runs -/

/-- One action keeps the tables complete exactly when it is not a `DELETE` of moved rows. -/
theorem complete_step {m₀ : Mailbox} {s : State} (hs : Shrinks m₀ s) (h : Complete m₀ s.db)
    (a : Action) : Complete m₀ (step s a).db ↔ Unmoved s a := by
  rcases step_cases s a with ⟨he, hu⟩ | ⟨t, call, ts, files, candidates, rfl, hd, he⟩ |
    ⟨id, k, f, u, he, hu⟩
  · rw [he]
    exact iff_of_true h hu
  · rw [he, unmoved_next hd]
    exact ⟨fun h' => h.unmoved hs h', fun hr => h.deletes hr⟩
  · rw [he]
    exact iff_of_true (h.setDeletedAt id k f u) hu

/-- **Tombstone completeness.** From complete tables, any interleaving of hard deletes, trashings
and restorings keeps the tables complete in every state reached exactly when no `DELETE` of it runs
on rows that have moved in or out of its `WHERE` since its `SELECT`. -/
theorem complete_iff_unmoved (m₀ : Mailbox) (h₀ : Complete m₀ m₀) (as : List Action) :
    (∀ bs, bs <+: as → Complete m₀ (run step (Store.init m₀) bs).db) ↔
      Along step Unmoved (Store.init m₀) as := by
  have hs : ∀ bs, Shrinks m₀ (run step (Store.init m₀) bs) := fun bs =>
    foldl_invariant (Shrinks m₀) shrinks_step (fun _ h => h) bs
  rw [along_iff_forall_concat]
  constructor
  · intro h bs a hbs
    have hpre : bs <+: as := (List.prefix_append bs [a]).trans hbs
    have hnext := h (bs ++ [a]) hbs
    rw [run_concat] at hnext
    exact (complete_step (hs bs) (h bs hpre) a).mp hnext
  · intro h bs
    induction bs using List.reverseRecOn with
    | nil => exact fun _ => h₀
    | append_singleton bs a ih =>
      intro hbs
      rw [run_concat]
      have hprev := ih ((List.prefix_append bs [a]).trans hbs)
      exact (complete_step (hs bs) hprev a).mpr (h bs a hbs)

/-! ## Two runs

One key, one email in its trash with a file, one email that is not.
-/

/-- A queued email of the key. -/
def queued (id : Text) (deletedAt : Option Time) : EmailRow where
  id := id
  apiKeyId := "key"
  fromAddress := "a@x.org"
  toAddress := "b@y.org"
  cc := none
  bcc := none
  subject := "Hello"
  tags := none
  status := .queued
  attempts := 0
  lastError := none
  messageId := none
  deliveryState := none
  sentAt := none
  nextAttemptAt := 0
  lockedBy := none
  leaseUntil := none
  createdAt := 0
  updatedAt := 0
  deletedAt := deletedAt

/-- The email `msg_1` is in the trash, `msg_2` is not; `msg_1` has a file. -/
def twoEmails : Mailbox where
  emails := ⟨[queued "msg_1" (some 5), queued "msg_2" none], by decide⟩
  attachments :=
    [{ id := "att_1", emailId := "msg_1", position := 0, filename := "a.txt",
       contentType := "text/plain", sizeBytes := 1, content := some [7] }]
  tombstones := Table.empty

theorem complete_twoEmails : Complete twoEmails twoEmails where
  deleted r hr hk := absurd (List.mem_map.mpr ⟨r, hr, rfl⟩) hk
  present r _ hk := by cases hk
  bytes r _ _ a ha _ := by
    rw [List.mem_singleton.mp ha]
    rfl

/-- The trash of the key is emptied, statement after statement. -/
def emptyTrash : List Action :=
  [.deleteEmailsWithTombstones 0 ⟨.all (some "key"), 9⟩, .next 0, .next 0, .next 0, .next 0, .next 0]

/-- Between the `SELECT` and the `DELETE`, the email `msg_1` is restored and `msg_2` trashed. -/
def movedMeanwhile : List Action :=
  [.deleteEmailsWithTombstones 0 ⟨.all (some "key"), 9⟩, .next 0, .next 0, .next 0,
    .restoreEmail "msg_1" (some "key"), .trashEmail "msg_2" (some "key") 9, .next 0, .next 0]

theorem complete_iff_unmoved_emptyTrash :
    (∀ bs, bs <+: emptyTrash → Complete twoEmails (run step (Store.init twoEmails) bs).db) ∧
      ((run step (Store.init twoEmails) emptyTrash).db.emails.keys = [("msg_2" : Text)]) :=
  ⟨(complete_iff_unmoved twoEmails complete_twoEmails emptyTrash).mpr (by decide +kernel),
    by decide +kernel⟩

/-- The call has returned: `msg_2` is gone without a tombstone, `msg_1` is there with a tombstone and
without its bytes. -/
theorem not_complete_movedMeanwhile :
    (run step (Store.init twoEmails) movedMeanwhile).phase? 0 = some (.returned [("msg_2" : Text)]) ∧
      (run step (Store.init twoEmails) movedMeanwhile).db.emails.keys = [("msg_1" : Text)] ∧
      (run step (Store.init twoEmails) movedMeanwhile).db.tombstones.keys = [("msg_1" : Text)] ∧
      (run step (Store.init twoEmails) movedMeanwhile).db.attachments.map (·.content) = [none] ∧
      ¬ Complete twoEmails (run step (Store.init twoEmails) movedMeanwhile).db := by
  refine ⟨by decide +kernel, by decide +kernel, by decide +kernel, by decide +kernel, fun h => ?_⟩
  have hone := h.deleted (queued "msg_2" none) (by decide) (by decide +kernel)
  exact absurd hone (by decide +kernel)

end BunMail.Emails.Trash
