import BunMail.Emails.MailerState
import BunMail.Utils.SmtpError

/-!
# Recording outcomes

An entry that was not sent is rewritten in place.  A transaction that was accepted keeps its
accepted recipients as `sent`, and each refused one moves to an entry of its own, under a key that
is free, classified by its own reply.  A transaction that failed, or was refused for every
recipient, is classified as a whole.
-/

namespace BunMail.Emails

open Recipients SmtpError

/-- A recipient refused at `RCPT TO` while others were accepted. -/
structure RejectedRecipient where
  recipient : Text
  error : ErrorObject
  deriving DecidableEq

/-- One transaction's outcome after failover.  No `error` means the MX accepted it; `deferredMs`
means the rate budget kept it from being tried. -/
structure RoutedOutcome where
  key : Text
  error : Option Thrown := none
  tls : Option DeliveryTls := none
  rejected : List RejectedRecipient := []
  mxHost : Option Text := none
  deferredMs : Option ℚ := none
  deriving DecidableEq

/-- An outcome that sends nothing: the domain cannot receive mail, or not for now. -/
inductive Unsent
  | failed (error : Text)
  | retry (error : Text)
  deriving DecidableEq

def Unsent.status : Unsent → DeliveryGroupStatus
  | .failed _ => .failed
  | .retry _ => .retry

def Unsent.error : Unsent → Text
  | .failed e | .retry e => e

/-- A failure's text, as stored in `lastError`. -/
def errorText : Thrown → Text
  | .error e => e.message
  | .text s => s
  | .other => "Unknown send failure"

/-- The status a failure leaves an entry in. -/
def failureStatus (parsed : Option ParsedSmtpError) : DeliveryGroupStatus :=
  match parsed with
  | some ⟨.hard, _⟩ | some ⟨.policy, _⟩ => .failed
  | _ => .retry

/-- The session an outcome comes from. -/
structure OutcomeInfo where
  tls : Option DeliveryTls
  mxHost : Option Text
  mtaSts : Option DeliveryMtaSts
  updatedAt : Time
  deriving DecidableEq

/-- The entry after a failed transaction, for `recipients`; a classification from an earlier
attempt is not carried over. -/
def failedEntry (group : DeliveryGroup) (recipients : List Text) (err : Thrown)
    (outcome : OutcomeInfo) : DeliveryGroup :=
  let parsed := classifySendFailure err
  { group with
    recipients
    status := failureStatus parsed
    attempts := group.attempts + 1
    lastError := some (errorText err)
    failureKind := parsed.map ParsedSmtpError.kind
    failureCode := parsed.map ParsedSmtpError.code
    blocked := if parsed.any (·.kind = .policy) then some true else none
    tls := some outcome.tls
    mxHost := outcome.mxHost
    mtaSts := some outcome.mtaSts
    updatedAt := some outcome.updatedAt }

/-- Records an outcome that sends nothing. -/
def recordUnsent (state : DeliveryState) (key : Text) (unsent : Unsent)
    (mtaSts : Option DeliveryMtaSts) (now : Time) : DeliveryState :=
  match state.get? key with
  | none => state
  | some group =>
    state.put key { group with
      failureKind := none
      failureCode := none
      blocked := none
      status := unsent.status
      attempts := group.attempts + 1
      lastError := some unsent.error
      tls := some none
      mtaSts := some mtaSts
      updatedAt := some now }

theorem keys_recordUnsent (state : DeliveryState) (key : Text) (unsent : Unsent)
    (mtaSts : Option DeliveryMtaSts) (now : Time) :
    (recordUnsent state key unsent mtaSts now).keys = state.keys := by
  unfold recordUnsent
  cases h : state.get? key with
  | none => rfl
  | some group => exact Table.keys_put_of_mem (Table.get?_isSome_iff.mp (by rw [h]; rfl))

section Outcome

variable (toLowerCase : Text → Text)

/-- Files one rejection under the address as stored; one of no recipient of the entry, or of a
recipient already found, is left out. -/
def addRefused (recipients : List Text) (found : List RejectedRecipient)
    (rejection : RejectedRecipient) : List RejectedRecipient :=
  match recipients.find? fun r => toLowerCase r = toLowerCase rejection.recipient with
  | none => found
  | some recipient =>
    if found.any (·.recipient = recipient) then found
    else found ++ [⟨recipient, rejection.error⟩]

/-- The entry's recipients the MX refused. -/
def refusedRecipients (recipients : List Text) (rejected : List RejectedRecipient) :
    List RejectedRecipient :=
  rejected.foldl (addRefused toLowerCase recipients) []

/-- The `n`-th key tried for a base. -/
def candidateKey (base : Text) (n : ℕ) : Text :=
  if n = 0 then base else base ++ '.' :: Text.decimal n

/-- The first candidate that is no key of the state; one of the first `keys + 1` is free. -/
def freeKey (state : DeliveryState) (base : Text) : Text :=
  candidateKey base (((List.range (state.keys.length + 1)).find? fun n =>
    candidateKey base n ∉ state.keys).getD 0)

/-- The key of the entry of a refused recipient. -/
def refusedKey (state : DeliveryState) (key recipient : Text) (order : List Text) : Text :=
  freeKey state (match order.idxOf? (toLowerCase recipient) with
    | some index => key ++ '#' :: Text.decimal index
    | none => key ++ "#u".toList)

/-- Gives a refused recipient its own entry. -/
def fileRefused (key : Text) (group : DeliveryGroup) (order : List Text) (info : OutcomeInfo)
    (state : DeliveryState) (refusal : RejectedRecipient) : DeliveryState :=
  state.put (refusedKey toLowerCase state key refusal.recipient order)
    (failedEntry group [refusal.recipient] (.error refusal.error) info)

/-- The entry of the accepted recipients. -/
def sentEntry (group : DeliveryGroup) (accepted : List Text) (messageId : Text)
    (info : OutcomeInfo) : DeliveryGroup :=
  { group with
    recipients := accepted
    status := .sent
    attempts := group.attempts + 1
    deliveredAt := some info.updatedAt
    messageId := some messageId
    tls := some info.tls
    mxHost := info.mxHost
    mtaSts := some info.mtaSts
    updatedAt := some info.updatedAt }

/-- The session of an outcome on an entry. -/
def outcomeInfo (outcome : RoutedOutcome) (group : DeliveryGroup) (mtaSts : Option DeliveryMtaSts)
    (now : Time) : OutcomeInfo :=
  ⟨outcome.tls, outcome.mxHost <|> group.mxHost, mtaSts, now⟩

/-- The recipients of an entry that were not refused. -/
def acceptedRecipients (recipients : List Text) (refused : List RejectedRecipient) : List Text :=
  recipients.filter fun r => !refused.any (·.recipient = r)

/-- The error of a transaction that failed; accepted with nobody left accepted counts as failed,
by the first refusal. -/
def transactionError (outcome : RoutedOutcome) (refused : List RejectedRecipient) : Thrown :=
  (outcome.error <|> (refused.head?.map fun r => Thrown.error r.error)).getD .other

/-- Records one transaction's outcome on its entry. -/
def recordOutcome (state : DeliveryState) (outcome : RoutedOutcome) (messageId : Text)
    (order : List Text) (mtaSts : Option DeliveryMtaSts) (now : Time) : DeliveryState :=
  match state.get? outcome.key with
  | none => state
  | some group =>
    let info := outcomeInfo outcome group mtaSts now
    let refused := refusedRecipients toLowerCase group.recipients outcome.rejected
    let accepted := acceptedRecipients group.recipients refused
    if outcome.error = none ∧ accepted ≠ [] then
      refused.foldl (fileRefused toLowerCase outcome.key group order info)
        (state.put outcome.key (sentEntry group accepted messageId info))
    else
      state.put outcome.key
        (failedEntry group group.recipients (transactionError outcome refused) info)

/-! ## Free keys -/

variable {toLowerCase} {state : DeliveryState}

theorem candidateKey_injective (base : Text) : Function.Injective (candidateKey base) := by
  intro m n h
  unfold candidateKey at h
  split_ifs at h with hm hn hn
  · omega
  · exact absurd (List.append_cancel_left ((List.append_nil base).trans h)) (by simp)
  · exact absurd (List.append_cancel_left (h.trans (List.append_nil base).symm)) (by simp)
  · have := List.append_cancel_left h
    rw [List.cons.injEq] at this
    exact Text.decimal_injective this.2

theorem freeKey_notMem (base : Text) : freeKey state base ∉ state.keys := by
  unfold freeKey
  cases hf : (List.range (state.keys.length + 1)).find? fun n =>
      candidateKey base n ∉ state.keys with
  | some n => simpa using List.find?_some hf
  | none =>
    -- otherwise the keys would hold one more candidate than there are keys
    exfalso
    have hsub : (List.range (state.keys.length + 1)).map (candidateKey base) ⊆ state.keys := by
      intro k hk
      obtain ⟨n, hn, rfl⟩ := List.mem_map.mp hk
      simpa using List.find?_eq_none.mp hf n hn
    have hnd : ((List.range (state.keys.length + 1)).map (candidateKey base)).Nodup :=
      List.Nodup.map (candidateKey_injective base) List.nodup_range
    have hlen := (List.subperm_of_subset hnd hsub).length_le
    rw [List.length_map, List.length_range] at hlen
    omega

theorem refusedKey_notMem (key recipient : Text) (order : List Text) :
    refusedKey toLowerCase state key recipient order ∉ state.keys := freeKey_notMem _

/-! ## Refused recipients -/

section Refused

variable {recipients : List Text} {rejected : List RejectedRecipient}

/-- Refusals name distinct recipients of the entry. -/
structure RefusedOf (recipients : List Text) (found : List RejectedRecipient) : Prop where
  nodup : (found.map RejectedRecipient.recipient).Nodup
  mem : ∀ f ∈ found, f.recipient ∈ recipients

theorem refusedOf_addRefused {found : List RejectedRecipient} {rejection : RejectedRecipient}
    (h : RefusedOf recipients found) :
    RefusedOf recipients (addRefused toLowerCase recipients found rejection) := by
  unfold addRefused
  cases hf : recipients.find? fun r => toLowerCase r = toLowerCase rejection.recipient with
  | none => exact h
  | some recipient =>
    dsimp only
    split_ifs with hany
    · exact h
    · constructor
      · rw [List.map_append, List.nodup_append]
        refine ⟨h.nodup, List.nodup_singleton _, ?_⟩
        rintro a ha b hb rfl
        obtain ⟨f, hmem, rfl⟩ := List.mem_map.mp ha
        rw [List.map_singleton, List.mem_singleton] at hb
        exact hany (List.any_eq_true.mpr ⟨f, hmem, by simpa using hb⟩)
      · intro f hmem
        rcases List.mem_append.mp hmem with hmem | hmem
        · exact h.mem f hmem
        · rw [List.mem_singleton.mp hmem]
          exact List.mem_of_find?_eq_some hf

theorem refusedOf_refusedRecipients :
    RefusedOf recipients (refusedRecipients toLowerCase recipients rejected) := by
  unfold refusedRecipients
  have hnil : RefusedOf recipients [] := ⟨List.nodup_nil, fun f hf => (by cases hf)⟩
  revert hnil
  generalize ([] : List RejectedRecipient) = found
  intro h
  induction rejected generalizing found with
  | nil => exact h
  | cons rejection rejected ih => exact ih _ (refusedOf_addRefused h)

/-- The accepted and the refused recipients are the recipients of the entry. -/
theorem perm_accepted_refused {refused : List RejectedRecipient} (hn : recipients.Nodup)
    (h : RefusedOf recipients refused) :
    (acceptedRecipients recipients refused ++ refused.map RejectedRecipient.recipient).Perm
      recipients := by
  have hsub : (refused.map RejectedRecipient.recipient).Perm
      (recipients.filter fun r => refused.any (·.recipient = r)) := by
    rw [List.perm_ext_iff_of_nodup h.nodup (hn.filter _)]
    intro r
    rw [List.mem_map, List.mem_filter]
    constructor
    · rintro ⟨f, hf, rfl⟩
      exact ⟨h.mem f hf, List.any_eq_true.mpr ⟨f, hf, by simp⟩⟩
    · rintro ⟨_, hany⟩
      obtain ⟨f, hf, he⟩ := List.any_eq_true.mp hany
      exact ⟨f, hf, by simpa using he⟩
  refine (hsub.append_left _).trans ?_
  refine List.perm_append_comm.trans ?_
  exact List.filter_append_perm (fun r => refused.any (·.recipient = r)) recipients

end Refused

/-! ## What recording does -/

section Record

variable {key : Text} {group : DeliveryGroup} {order : List Text} {info : OutcomeInfo}
  {refused : List RejectedRecipient}

theorem keys_fileRefused {refusal : RejectedRecipient} {k : Text} (hk : k ∈ state.keys) :
    k ∈ (fileRefused toLowerCase key group order info state refusal).keys ∧
      (fileRefused toLowerCase key group order info state refusal).get? k = state.get? k := by
  refine ⟨Table.mem_keys_put.mpr (.inr hk), Table.get?_put_ne ?_⟩
  rintro rfl
  exact refusedKey_notMem _ _ _ hk

/-- Filing refusals leaves the entries there are. -/
theorem get?_fileRefused_of_mem {k : Text} (hk : k ∈ state.keys) :
    (refused.foldl (fileRefused toLowerCase key group order info) state).get? k =
      state.get? k := by
  induction refused generalizing state with
  | nil => rfl
  | cons x refused ih =>
    obtain ⟨hmem, hget⟩ : k ∈ (fileRefused toLowerCase key group order info state x).keys ∧
        (fileRefused toLowerCase key group order info state x).get? k = state.get? k :=
      keys_fileRefused hk
    rw [List.foldl_cons, ih hmem, hget]

/-- An entry after filing refusals was there, or is that of a refusal under a new key. -/
theorem get?_fileRefused {k : Text} {g : DeliveryGroup}
    (h : (refused.foldl (fileRefused toLowerCase key group order info) state).get? k = some g) :
    state.get? k = some g ∨ k ∉ state.keys ∧
      ∃ x ∈ refused, g = failedEntry group [x.recipient] (.error x.error) info := by
  induction refused generalizing state with
  | nil => exact .inl h
  | cons x refused ih =>
    rw [List.foldl_cons] at h
    rcases ih h with h | ⟨hk, y, hy, rfl⟩
    · rw [fileRefused, Table.get?_put] at h
      split_ifs at h with hk
      · refine .inr ⟨hk ▸ refusedKey_notMem _ _ _, x, List.mem_cons_self, ?_⟩
        exact (Option.some.inj h).symm
      · exact .inl h
    · refine .inr ⟨fun hm => hk ?_, y, List.mem_cons_of_mem _ hy, rfl⟩
      exact Table.mem_keys_put.mpr (.inr hm)

theorem perm_recipientsOf_fileRefused :
    (recipientsOf (refused.foldl (fileRefused toLowerCase key group order info) state)).Perm
      (recipientsOf state ++ refused.map RejectedRecipient.recipient) := by
  induction refused generalizing state with
  | nil => rw [List.map_nil, List.append_nil]; rfl
  | cons x refused ih =>
    rw [List.foldl_cons]
    refine ih.trans ?_
    rw [fileRefused, recipientsOf_put_new (refusedKey_notMem _ _ _), List.append_assoc]
    rfl

variable {outcome : RoutedOutcome} {messageId : Text} {mtaSts : Option DeliveryMtaSts} {now : Time}

/-- The three things recording an outcome can do. -/
theorem recordOutcome_cases (hg : state.get? outcome.key = some group) :
    (outcome.error = none ∧
      recordOutcome toLowerCase state outcome messageId order mtaSts now =
        (refusedRecipients toLowerCase group.recipients outcome.rejected).foldl
          (fileRefused toLowerCase outcome.key group order (outcomeInfo outcome group mtaSts now))
          (state.put outcome.key (sentEntry group
            (acceptedRecipients group.recipients
              (refusedRecipients toLowerCase group.recipients outcome.rejected))
            messageId (outcomeInfo outcome group mtaSts now)))) ∨
    recordOutcome toLowerCase state outcome messageId order mtaSts now =
      state.put outcome.key (failedEntry group group.recipients
        (transactionError outcome
          (refusedRecipients toLowerCase group.recipients outcome.rejected))
        (outcomeInfo outcome group mtaSts now)) := by
  unfold recordOutcome
  rw [hg]
  dsimp only
  split_ifs with h
  · exact .inl ⟨h.1, rfl⟩
  · exact .inr rfl

theorem recordOutcome_of_none (hg : state.get? outcome.key = none) :
    recordOutcome toLowerCase state outcome messageId order mtaSts now = state := by
  unfold recordOutcome
  rw [hg]

theorem mem_keys_of_get? {k : Text} (h : state.get? k = some group) : k ∈ state.keys :=
  Table.get?_isSome_iff.mp (by rw [h]; rfl)

/-- Recording an outcome leaves every other entry alone. -/
theorem get?_recordOutcome_ne {k : Text} (hk : k ≠ outcome.key) (hs : k ∈ state.keys) :
    (recordOutcome toLowerCase state outcome messageId order mtaSts now).get? k = state.get? k := by
  cases hg : state.get? outcome.key with
  | none => rw [recordOutcome_of_none hg]
  | some group =>
    rcases recordOutcome_cases hg with ⟨_, h⟩ | h
    · rw [h, get?_fileRefused_of_mem (Table.mem_keys_put.mpr (.inr hs)), Table.get?_put_ne hk]
    · rw [h, Table.get?_put_ne hk]

/-- An entry after recording an outcome was there, or holds recipients of the outcome's entry,
under its key or a new one. -/
theorem get?_recordOutcome {k : Text} {g : DeliveryGroup}
    (h : (recordOutcome toLowerCase state outcome messageId order mtaSts now).get? k = some g) :
    state.get? k = some g ∨ (k = outcome.key ∨ k ∉ state.keys) ∧
      ∃ group, state.get? outcome.key = some group ∧ g.domain = group.domain ∧
        ∀ r ∈ g.recipients, r ∈ group.recipients := by
  cases hg : state.get? outcome.key with
  | none =>
    rw [recordOutcome_of_none hg] at h
    exact .inl h
  | some group =>
    rcases recordOutcome_cases hg with ⟨_, heq⟩ | heq
    · rw [heq] at h
      rcases get?_fileRefused h with h | ⟨hk, x, hx, rfl⟩
      · rw [Table.get?_put] at h
        split_ifs at h with hk
        · refine .inr ⟨.inl hk, group, rfl, ?_⟩
          rw [← Option.some.inj h]
          exact ⟨rfl, fun r hr => (List.mem_filter.mp hr).1⟩
        · exact .inl h
      · refine .inr ⟨.inr fun hm => hk (Table.mem_keys_put.mpr (.inr hm)), group, rfl, rfl, ?_⟩
        intro r hr
        rw [List.mem_singleton.mp hr]
        exact refusedOf_refusedRecipients.mem x hx
    · rw [heq, Table.get?_put] at h
      split_ifs at h with hk
      · refine .inr ⟨.inl hk, group, rfl, ?_⟩
        rw [← Option.some.inj h]
        exact ⟨rfl, fun r hr => hr⟩
      · exact .inl h

/-- Recording an outcome keeps every recipient. -/
theorem perm_recipientsOf_recordOutcome (hn : (recipientsOf state).Nodup) :
    (recipientsOf (recordOutcome toLowerCase state outcome messageId order mtaSts now)).Perm
      (recipientsOf state) := by
  cases hg : state.get? outcome.key with
  | none => rw [recordOutcome_of_none hg]
  | some group =>
    rcases recordOutcome_cases hg with ⟨_, h⟩ | h
    · rw [h]
      refine perm_recipientsOf_fileRefused.trans ?_
      exact perm_recipientsOf_put_split hg (perm_accepted_refused
        ((sublist_recipientsOf hg).nodup hn) refusedOf_refusedRecipients)
    · rw [h]
      exact perm_recipientsOf_put_same hg rfl

end Record

end Outcome

end BunMail.Emails
