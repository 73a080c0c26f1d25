import BunMail.Emails.QueueOutcome
import BunMail.Emails.Settled

/-!
# Refused recipients and their replies

A transaction whose MX accepted some recipients gives each refused one its own entry, judged by its
own reply.  When every recipient is refused the transaction fails as a whole, and the last reply
judges all of them.
-/

namespace BunMail.Emails

open SmtpError

/-! ## What nodemailer makes of the replies -/

/-- The answer to `RCPT TO` for one recipient. -/
inductive RcptReply
  | accepted
  | refused (code : ℕ) (response : Text)
  deriving DecidableEq

/-- The error nodemailer makes of a refusal. -/
def rcptError (message : Text) (code : ℕ) (response : Text) : ErrorObject where
  message := message ++ ": ".toList ++ response
  responseCode := some code
  response := some response
  code := some "EENVELOPE"
  command := some "RCPT TO"

/-- The error of a refused recipient. -/
def ownError (reply : Text → RcptReply) (recipient : Text) : Option ErrorObject :=
  match reply recipient with
  | .accepted => none
  | .refused code response => some (rcptError "Recipient command failed" code response)

/-- The refusals, in the order of the recipients. -/
def refusals (recipients : List Text) (reply : Text → RcptReply) : List RejectedRecipient :=
  recipients.filterMap fun r => (ownError reply r).map (⟨r, ·⟩)

/-- The error of a transaction that was refused for every recipient: it carries the last reply. -/
def allRefusedError (recipients : List Text) (reply : Text → RcptReply) : ErrorObject :=
  match recipients.getLast?.map reply with
  | some (.refused code response) =>
    rcptError "Can't send mail - all recipients were rejected" code response
  | _ => { message := "No recipients defined", code := some "EENVELOPE" }

/-- With a recipient accepted nodemailer resolves with an error for each refused one; with none it
throws one error with the last reply. -/
def nodemailerAnswer (recipients : List Text) (reply : Text → RcptReply) : NodemailerResult :=
  if recipients.any (reply · = .accepted) then
    .resolved ((refusals recipients reply).map fun x => (some x.recipient, x.error))
      ((refusals recipients reply).map RejectedRecipient.recipient)
  else .threw (.error (allRefusedError recipients reply))

/-- The outcome of a transaction with these replies. -/
def rcptOutcome (verifiedTls : Bool) (mxHost : Text) (deadlineMs : ℕ) (t : MxTransaction)
    (tls : Option DeliveryTls) (reply : Text → RcptReply) : RoutedOutcome :=
  { sessionOutcome verifiedTls mxHost deadlineMs t ⟨false, nodemailerAnswer t.recipients reply, tls⟩
    with mxHost := some mxHost }

/-! ## Judgement -/

/-- The reply was temporary. -/
def Temporary (error : ErrorObject) : Prop :=
  ∃ code, classifySendFailure (.error error) = some ⟨.soft, code⟩

/-- The reply was a hard failure of the recipient. -/
def Hard (error : ErrorObject) : Prop :=
  ∃ code, classifySendFailure (.error error) = some ⟨.hard, code⟩

/-- Every refused recipient is judged by its own reply: a temporary one leaves it in no failed entry
and without a hard bounce, a hard one does not leave it pending. -/
def JudgedByOwn (recipients : List Text) (reply : Text → RcptReply) (state : DeliveryState) : Prop :=
  ∀ r ∈ recipients, ∀ error, ownError reply r = some error →
    (Temporary error →
      (∀ key group, state.get? key = some group → r ∈ group.recipients → group.status ≠ .failed) ∧
        ∀ messageId priorStatuses deferred,
          r ∉ (hardBounces ⟨state, messageId, priorStatuses, deferred⟩).map InlineBounce.recipient) ∧
    (Hard error →
      ∀ key group, state.get? key = some group → r ∈ group.recipients → group.status ≠ .retry)

section Replies

variable {toLowerCase : Text → Text} {state : DeliveryState} {recipients : List Text}
  {reply : Text → RcptReply} {error : ErrorObject}

theorem failureStatus_of_temporary (h : Temporary error) :
    failureStatus (classifySendFailure (.error error)) = .retry := by
  obtain ⟨code, h⟩ := h
  rw [h]
  rfl

theorem failureStatus_of_hard (h : Hard error) :
    failureStatus (classifySendFailure (.error error)) = .failed := by
  obtain ⟨code, h⟩ := h
  rw [h]
  rfl

/-- The error of a transaction is classified by the reply it carries. -/
theorem classify_rcptError (message message' : Text) (code : ℕ) (response : Text) :
    classifySendFailure (.error (rcptError message code response)) =
      classifySendFailure (.error (rcptError message' code response)) := rfl

/-- Only a failed entry bounces hard. -/
theorem exists_failed_of_hardBounce {sent : SentAttempt} {r : Text}
    (h : r ∈ (hardBounces sent).map InlineBounce.recipient) :
    ∃ key group, sent.deliveryState.get? key = some group ∧ r ∈ group.recipients ∧
      group.status = .failed := by
  obtain ⟨b, hb, rfl⟩ := List.mem_map.mp h
  obtain ⟨⟨key, group⟩, hrow, hb⟩ := List.mem_flatMap.mp hb
  dsimp only at hb
  split_ifs at hb with hskip
  · cases hb
  · rw [not_or, not_not] at hskip
    have hmem : b.recipient ∈ group.recipients := by
      split at hb
      · obtain ⟨r, hr, rfl⟩ := List.mem_map.mp hb
        exact hr
      · cases hb
    exact ⟨key, group, Table.get?_eq_some_iff.mpr hrow, hmem, hskip.1⟩

/-! ## The refusals of a transaction -/

theorem mem_refusals {x : RejectedRecipient} :
    x ∈ refusals recipients reply ↔ x.recipient ∈ recipients ∧ ownError reply x.recipient = some x.error := by
  unfold refusals
  rw [List.mem_filterMap]
  constructor
  · rintro ⟨r, hr, hx⟩
    obtain ⟨error, he, rfl⟩ := Option.map_eq_some_iff.mp hx
    exact ⟨hr, he⟩
  · rintro ⟨hr, he⟩
    exact ⟨x.recipient, hr, by rw [he]; rfl⟩

theorem sublist_refusals (recipients : List Text) (reply : Text → RcptReply) :
    ((refusals recipients reply).map RejectedRecipient.recipient).Sublist recipients := by
  unfold refusals
  induction recipients with
  | nil => exact List.Sublist.refl _
  | cons r recipients ih =>
    rw [List.filterMap_cons]
    cases ownError reply r with
    | none => exact ih.cons _
    | some error => exact ih.cons_cons _

/-- What nodemailer resolves with gives back the refusals. -/
theorem rejectedRecipients_refusals :
    rejectedRecipients ((refusals recipients reply).map fun x => (some x.recipient, x.error))
      ((refusals recipients reply).map RejectedRecipient.recipient) = refusals recipients reply := by
  unfold rejectedRecipients
  generalize refusals recipients reply = found
  dsimp only
  rw [List.filterMap_map]
  change List.foldl _ (found.filterMap some) _ = found
  rw [List.filterMap_some]
  -- every listed address has its error already
  suffices ∀ listed : List Text, (∀ r ∈ listed, found.any (·.recipient = r) = true) →
      listed.foldl (fun found recipient => if found.any (·.recipient = recipient) then found
        else found ++ [⟨recipient, rejectedWithoutReply⟩]) found = found from
    this _ fun r hr => by
      obtain ⟨x, hx, rfl⟩ := List.mem_map.mp hr
      exact List.any_eq_true.mpr ⟨x, hx, by simp⟩
  intro listed hlisted
  induction listed with
  | nil => rfl
  | cons r listed ih =>
    rw [List.foldl_cons, if_pos (hlisted r List.mem_cons_self)]
    exact ih fun r' hr' => hlisted r' (List.mem_cons_of_mem _ hr')

/-- Refusals of distinct recipients are all filed, as they are. -/
theorem refusedRecipients_of_sublist {rejected : List RejectedRecipient}
    (hd : (recipients.map toLowerCase).Nodup)
    (hs : (rejected.map RejectedRecipient.recipient).Sublist recipients) :
    refusedRecipients toLowerCase recipients rejected = rejected := by
  have hn : (rejected.map RejectedRecipient.recipient).Nodup := hs.nodup (hd.of_map _)
  have hsub : ∀ x ∈ rejected, x.recipient ∈ recipients := fun x hx =>
    hs.subset (List.mem_map_of_mem hx)
  unfold refusedRecipients
  clear hs
  induction rejected using List.reverseRecOn with
  | nil => rfl
  | append_singleton rejected x ih =>
    rw [List.map_append, List.nodup_append] at hn
    rw [List.foldl_append, ih hn.1 fun y hy => hsub y (List.mem_append_left _ hy),
      List.foldl_cons, List.foldl_nil]
    have hx := hsub x (List.mem_append_right _ (List.mem_singleton_self _))
    have hfind : (recipients.find? fun r => toLowerCase r = toLowerCase x.recipient) =
        some x.recipient := by
      cases hf : recipients.find? fun r => toLowerCase r = toLowerCase x.recipient with
      | none => simpa using List.find?_eq_none.mp hf x.recipient hx
      | some r =>
        have hr : toLowerCase r = toLowerCase x.recipient := by simpa using List.find?_some hf
        rw [List.inj_on_of_nodup_map hd (List.mem_of_find?_eq_some hf) hx hr]
    unfold addRefused
    rw [hfind]
    dsimp only
    rw [if_neg]
    intro hany
    obtain ⟨y, hy, he⟩ := List.any_eq_true.mp hany
    exact hn.2.2 _ (List.mem_map_of_mem hy) _ (List.mem_singleton_self _) (by simpa using he)

variable {verifiedTls : Bool} {mxHost : Text} {deadlineMs : ℕ} {t : MxTransaction}
  {tls : Option DeliveryTls}

/-- With a recipient accepted the outcome carries the refusals. -/
theorem rcptOutcome_of_accepted (h : ∃ r ∈ t.recipients, reply r = .accepted) :
    rcptOutcome verifiedTls mxHost deadlineMs t tls reply =
      { key := t.key, tls := tls, rejected := refusals t.recipients reply, mxHost := some mxHost } := by
  have hany : t.recipients.any (reply · = .accepted) = true := by
    obtain ⟨r, hr, ha⟩ := h
    exact List.any_eq_true.mpr ⟨r, hr, by simpa using ha⟩
  unfold rcptOutcome sessionOutcome nodemailerAnswer
  rw [if_pos hany]
  simp only [Bool.false_eq_true, if_false]
  rw [rejectedRecipients_refusals]

/-- The error of a refusal is no TLS failure. -/
theorem enforcedTlsFailure_rcptError (message : Text) (code : ℕ) (response : Text) :
    enforcedTlsFailure (.error (rcptError message code response)) mxHost =
      .error (rcptError message code response) := by
  unfold enforcedTlsFailure rcptError
  dsimp only
  have hcode : isTlsFailureCode "EENVELOPE" = false := by decide
  rw [if_neg]
  simpa using hcode

/-- With every recipient refused the outcome carries the last reply. -/
theorem rcptOutcome_of_refused {last : Text} {code : ℕ} {response : Text}
    (h : ∀ r ∈ t.recipients, reply r ≠ .accepted) (hlast : t.recipients.getLast? = some last)
    (hreply : reply last = .refused code response) :
    rcptOutcome verifiedTls mxHost deadlineMs t tls reply =
      { key := t.key, tls := tls, mxHost := some mxHost
        error := some (.error
          (rcptError "Can't send mail - all recipients were rejected" code response)) } := by
  have hany : ¬ t.recipients.any (reply · = .accepted) = true := by
    intro hany
    obtain ⟨r, hr, ha⟩ := List.any_eq_true.mp hany
    exact h r hr (by simpa using ha)
  unfold rcptOutcome sessionOutcome nodemailerAnswer allRefusedError
  rw [if_neg hany, hlast, Option.map_some, hreply]
  simp only [Bool.false_eq_true, if_false]
  cases verifiedTls with
  | false => rfl
  | true => rw [if_pos rfl, enforcedTlsFailure_rcptError]

/-! ## The entries they leave -/

variable {key messageId : Text} {group : DeliveryGroup} {order : List Text}
  {mtaSts : Option DeliveryMtaSts} {now : Time}

/-- With a recipient accepted, whoever was refused is in an entry of its own, classified by its own
reply. -/
theorem entry_of_refused (hd : Distinct toLowerCase state) (hg : state.get? t.key = some group)
    (ht : t.recipients = group.recipients) (ha : ∃ r ∈ t.recipients, reply r = .accepted)
    {r : Text} {entry : DeliveryGroup} (hr : ownError reply r = some error)
    (hin : r ∈ group.recipients) (hre : r ∈ entry.recipients)
    (he : (recordOutcome toLowerCase state
      (rcptOutcome verifiedTls mxHost deadlineMs t tls reply) messageId order mtaSts now).get? key =
        some entry) :
    ∃ info, entry = failedEntry group [r] (.error error) info := by
  have hgroup : (group.recipients.map toLowerCase).Nodup :=
    ((sublist_recipientsOf hg).map toLowerCase).nodup hd
  have hrefused : refusedRecipients toLowerCase group.recipients (refusals t.recipients reply) =
      refusals t.recipients reply :=
    refusedRecipients_of_sublist hgroup (ht ▸ sublist_refusals t.recipients reply)
  have hmem : (⟨r, error⟩ : RejectedRecipient) ∈ refusals t.recipients reply :=
    mem_refusals.mpr ⟨ht ▸ hin, hr⟩
  rw [rcptOutcome_of_accepted ha] at he
  have hacc : acceptedRecipients group.recipients (refusals t.recipients reply) ≠ [] := by
    obtain ⟨r', hr', ha'⟩ := ha
    refine List.ne_nil_of_mem (List.mem_filter.mpr ⟨ht ▸ hr', ?_⟩)
    rw [Bool.not_eq_true', List.any_eq_false]
    rintro x hx hxr
    have hown := (mem_refusals.mp hx).2
    rw [of_decide_eq_true hxr, ownError, ha'] at hown
    cases hown
  unfold recordOutcome at he
  rw [hg] at he
  dsimp only at he
  rw [hrefused, if_pos ⟨rfl, hacc⟩] at he
  rcases get?_fileRefused he with he | ⟨_, x, hx, rfl⟩
  · exfalso
    rw [Table.get?_put] at he
    split_ifs at he with hk
    · -- the accepted recipients do not include it
      rw [← Option.some.inj he] at hre
      have := (List.mem_filter.mp hre).2
      rw [Bool.not_eq_true', List.any_eq_false] at this
      exact this _ hmem (by simp)
    · exact hk (entry_unique (hd.of_map toLowerCase) he hg hre hin).1
  · rw [List.mem_singleton.mp hre]
    have hown := (mem_refusals.mp hx).2
    rw [← List.mem_singleton.mp hre, hr] at hown
    exact ⟨_, by rw [Option.some.inj hown]⟩

end Replies

/-! ## A transaction refused for everyone -/

/-- The first recipient's mailbox is busy, the second one does not exist. -/
def busyThenUnknown (recipient : Text) : RcptReply :=
  if recipient = "a@x.org".toList then .refused 450 "450 4.2.1 Mailbox busy"
  else .refused 550 "550 5.1.1 No such user"

/-- The pending entry of both, and of a third recipient. -/
def pendingEntry (recipients : List Text) : DeliveryState :=
  Table.empty.put "x.org"
    { status := .retry, recipients := recipients, attempts := 0, domain := some "x.org" }

/-- The transaction of an entry of `x.org`. -/
def transactionTo (recipients : List Text) : MxTransaction :=
  ⟨"x.org", "x.org", recipients, "s@from.org"⟩

end BunMail.Emails
