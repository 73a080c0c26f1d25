import BunMail.Lib.Table
import BunMail.Lib.Text
import Mathlib.Data.List.Pairwise
import Mathlib.Data.Rat.Defs

/-!
# The emails table

A row carries its queue columns (status, attempts, lease) and its delivery state: a record of
delivery groups, keyed by recipient domain, by `domain#index` once split per recipient, or by MX
host on entries from before the domain column.  The state is stored as `jsonb`, which gives the
keys back in its own order.
-/

namespace BunMail.Emails

/-! ## The delivery state -/

/-- `DeliveryGroupStatus`. -/
inductive DeliveryGroupStatus
  | sent | retry | failed
  deriving DecidableEq, Repr

/-- `DeliveryGroup.failureKind`. -/
inductive FailureKind
  | hard | policy | soft
  deriving DecidableEq, Repr

/-- Encryption of an outbound session. -/
inductive DeliveryTls
  | starttls | plaintext
  deriving DecidableEq, Repr

/-- MTA-STS policy mode an attempt ran under. -/
inductive DeliveryMtaSts
  | enforce | testing
  deriving DecidableEq, Repr

/-- One entry of `emails.delivery_state`. -/
structure DeliveryGroup where
  status : DeliveryGroupStatus
  recipients : List Text
  attempts : ℕ
  deliveredAt : Option Time := none
  lastError : Option Text := none
  blocked : Option Bool := none
  failureKind : Option FailureKind := none
  failureCode : Option Text := none
  messageId : Option Text := none
  domain : Option Text := none
  mxHost : Option Text := none
  tls : Option (Option DeliveryTls) := none
  mtaSts : Option (Option DeliveryMtaSts) := none
  updatedAt : Option Time := none
  deriving DecidableEq

/-- `Record<string, DeliveryGroup>`, in insertion order. -/
abbrev DeliveryState := Table (Prod.fst : Text × DeliveryGroup → Text)

/-- `Object.values(state)`. -/
def groupsOf (state : DeliveryState) : List DeliveryGroup := state.rows.map Prod.snd

/-- Every address the state holds, entry after entry. -/
def recipientsOf (state : DeliveryState) : List Text := state.rows.flatMap fun e => e.2.recipients

section DeliveryState

variable {state : DeliveryState} {key : Text} {group group' : DeliveryGroup}

theorem mem_recipientsOf {r : Text} :
    r ∈ recipientsOf state ↔ ∃ key group, state.get? key = some group ∧ r ∈ group.recipients := by
  unfold recipientsOf
  rw [List.mem_flatMap]
  constructor
  · rintro ⟨⟨key, group⟩, hm, hr⟩
    exact ⟨key, group, Table.get?_eq_some_iff.mpr hm, hr⟩
  · rintro ⟨key, group, hg, hr⟩
    exact ⟨(key, group), Table.get?_eq_some_iff.mp hg, hr⟩

/-- Writing an entry trades the recipients it held for those it holds now. -/
theorem perm_recipientsOf_put (h : state.get? key = some group) :
    (recipientsOf (state.put key group') ++ group.recipients).Perm
      (recipientsOf state ++ group'.recipients) :=
  Table.perm_flatMap_upsert_some (f := fun e : Text × DeliveryGroup => e.2.recipients)
    (show state.find? (key, group').1 = some (key, group) from Table.find?_eq_of_get? h)

/-- An entry that gives up `rest` of its recipients. -/
theorem perm_recipientsOf_put_split {rest : List Text} (h : state.get? key = some group)
    (hp : (group'.recipients ++ rest).Perm group.recipients) :
    (recipientsOf (state.put key group') ++ rest).Perm (recipientsOf state) := by
  have hput : (recipientsOf (state.put key group') ++ group.recipients).Perm _ :=
    perm_recipientsOf_put h
  rw [List.perm_iff_count] at hp hput ⊢
  intro r
  have h₁ := hp r
  have h₂ := hput r
  rw [List.count_append] at h₁ ⊢
  rw [List.count_append, List.count_append] at h₂
  omega

theorem perm_recipientsOf_put_same (h : state.get? key = some group)
    (hr : group'.recipients = group.recipients) :
    (recipientsOf (state.put key group')).Perm (recipientsOf state) := by
  have hp : (recipientsOf (state.put key group') ++ []).Perm _ :=
    perm_recipientsOf_put_split h (by rw [hr, List.append_nil])
  rwa [List.append_nil] at hp

theorem recipientsOf_put_new (h : key ∉ state.keys) :
    recipientsOf (state.put key group) = recipientsOf state ++ group.recipients := by
  unfold recipientsOf
  rw [Table.put_rows_of_notMem h, List.flatMap_append, List.flatMap_singleton]

/-- The recipients of an entry are among those of the state, each as often as there. -/
theorem sublist_recipientsOf (h : state.get? key = some group) :
    group.recipients.Sublist (recipientsOf state) :=
  List.sublist_flatten_of_mem
    (List.mem_map_of_mem (f := fun e : Text × DeliveryGroup => e.2.recipients)
      (Table.get?_eq_some_iff.mp h))

/-- No two entries hold the same address. -/
theorem entry_unique {key₀ r : Text} {group₀ : DeliveryGroup} (hn : (recipientsOf state).Nodup)
    (h₀ : state.get? key₀ = some group₀) (h : state.get? key = some group)
    (hr₀ : r ∈ group₀.recipients) (hr : r ∈ group.recipients) : key₀ = key ∧ group₀ = group := by
  unfold recipientsOf at hn
  rw [List.nodup_flatMap] at hn
  have hsymm : Std.Symm (Function.onFun List.Disjoint fun e : Text × DeliveryGroup =>
      e.2.recipients) := ⟨fun _ _ h _ ha hb => h hb ha⟩
  by_contra hne
  have hdisj := hn.2.forall (Table.get?_eq_some_iff.mp h₀) (Table.get?_eq_some_iff.mp h)
    fun heq => hne (Prod.mk.inj heq)
  exact hdisj hr₀ hr

/-- The order of `jsonb` keys: by length in bytes, then by bytes. -/
def jsonbOrder (a b : Text × DeliveryGroup) : Prop :=
  Text.utf8Length a.1 < Text.utf8Length b.1 ∨
    Text.utf8Length a.1 = Text.utf8Length b.1 ∧ Text.bytesLe a.1 b.1 = true

instance : DecidableRel jsonbOrder := fun a b =>
  inferInstanceAs (Decidable (Text.utf8Length a.1 < Text.utf8Length b.1 ∨
    Text.utf8Length a.1 = Text.utf8Length b.1 ∧ Text.bytesLe a.1 b.1 = true))

/-- The state as `jsonb` gives it back. -/
def jsonb (state : DeliveryState) : DeliveryState := state.sort jsonbOrder

theorem get?_jsonb : (jsonb state).get? key = state.get? key := by
  unfold Table.get? jsonb
  rw [Table.find?_sort]

instance : Std.Total jsonbOrder where
  total a b := by
    unfold jsonbOrder
    rcases lt_trichotomy (Text.utf8Length a.1) (Text.utf8Length b.1) with h | h | h
    · exact .inl (.inl h)
    · exact (Text.bytesLe_total a.1 b.1).imp (fun hle => .inr ⟨h, hle⟩)
        fun hle => .inr ⟨h.symm, hle⟩
    · exact .inr (.inl h)

instance : IsTrans (Text × DeliveryGroup) jsonbOrder where
  trans a b c := by
    unfold jsonbOrder
    rintro (hab | ⟨hab, hle⟩) (hbc | ⟨hbc, hle'⟩)
    · exact .inl (hab.trans hbc)
    · exact .inl (hbc ▸ hab)
    · exact .inl (hab ▸ hbc)
    · exact .inr ⟨hab.trans hbc, Text.bytesLe_trans hle hle'⟩

/-- The keys come by length. -/
def ByLength (state : DeliveryState) : Prop :=
  state.keys.Pairwise fun a b => Text.utf8Length a ≤ Text.utf8Length b

theorem byLength_jsonb : ByLength (jsonb state) :=
  List.pairwise_map.mpr ((state.pairwise_sort jsonbOrder).imp fun h =>
    h.elim le_of_lt fun h => le_of_eq h.1)

theorem perm_jsonb : (jsonb state).rows.Perm state.rows := Table.perm_sort _ _

end DeliveryState

/-! ## The row -/

/-- `EMAIL_STATUSES`. -/
inductive EmailStatus
  | queued | sending | sent | failed | bounced
  deriving DecidableEq, Repr

/-- `FINAL_STATUSES`: an email never leaves them through the queue. -/
def EmailStatus.final : EmailStatus → Bool
  | .sent | .failed | .bounced => true
  | .queued | .sending => false

/-- The columns the queue reads or writes. -/
structure EmailRow where
  id : Text
  apiKeyId : Text
  fromAddress : Text
  toAddress : Text
  cc : Option Text
  bcc : Option Text
  subject : Text
  tags : Option (List (Text × Text))
  status : EmailStatus
  attempts : ℕ
  lastError : Option Text
  messageId : Option Text
  deliveryState : Option DeliveryState
  sentAt : Option Time
  nextAttemptAt : Time
  lockedBy : Option Text
  leaseUntil : Option Time
  createdAt : Time
  updatedAt : Time
  deletedAt : Option Time
  deriving DecidableEq

/-- What an outcome sets on the row.  A column that is `none` is left out of the update;
`nextAttemptInMs` is counted from the database clock. -/
structure RowValues where
  status : EmailStatus
  attempts : Option ℕ := none
  nextAttemptInMs : Option ℕ := none
  lastError : Option (Option Text) := none
  messageId : Option Text := none
  deliveryState : Option DeliveryState := none
  sentAt : Option (Option Time) := none
  deriving DecidableEq

/-- The row with the values set, at the instant `now` of the database clock. -/
def RowValues.apply (values : RowValues) (now : Time) (row : EmailRow) : EmailRow :=
  { row with
    status := values.status
    attempts := values.attempts.getD row.attempts
    nextAttemptAt := (values.nextAttemptInMs.map (now + ·)).getD row.nextAttemptAt
    lastError := values.lastError.getD row.lastError
    messageId := values.messageId <|> row.messageId
    deliveryState := values.deliveryState.map jsonb <|> row.deliveryState
    sentAt := values.sentAt.getD row.sentAt }

end BunMail.Emails
