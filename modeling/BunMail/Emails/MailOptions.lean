import BunMail.Emails.CustomHeaders
import BunMail.Emails.ListUnsubscribe

/-!
# The headers of a message

`buildMailOptions` of `mailer-message.service.ts`: the custom headers first, then BunMail's own.  No custom
header has a name that BunMail sets, so no two header fields of a message have one name.
-/

namespace BunMail.Emails

open Text Unsubscribe

/-! ## The options -/

/-- `OutboundAttachment`. -/
structure OutboundAttachment where
  filename : Text
  contentType : Text
  contentId : Option Text
  content : List UInt8

/-- `FeedbackSource`. -/
structure FeedbackSource where
  source : Text
  apiKeyId : Option Text

/-- `MailReport`: the values of `TLS-Report-Domain` and `TLS-Report-Submitter`. -/
structure MailReport where
  domain : Text
  submitter : Text

/-- `MxGroupMessage`, as far as it is built from. -/
structure MxGroupMessage where
  recipients : List Text
  sender : Text
  fromName : Option Text
  envelopeFrom : Option Text
  headerTo : Text
  headerCc : Option Text
  replyTo : Option Text
  subject : Text
  html : Option Text
  text : Option Text
  messageId : Text
  headers : CustomHeaders
  attachments : List OutboundAttachment
  unsubscribe : Option UnsubscribeOptions
  feedback : Option FeedbackSource
  autoSubmitted : Bool
  category : Option EmailCategory
  report : Option MailReport

/-- The value of a header field: text, or an address with a display name. -/
inductive HeaderValue where
  | text (value : Text)
  | mailbox (name address : Text)
  deriving DecidableEq

/-- An attachment as it is composed. -/
structure MailAttachment where
  filename : Text
  content : List UInt8
  contentType : Text
  cid : Option Text
  contentDisposition : Text

/-- `Mail.Options`. -/
structure MailOptions where
  sender : HeaderValue
  to_ : Text
  cc : Option Text
  replyTo : Option Text
  subject : Text
  html : Option Text
  text : Option Text
  messageId : Text
  envelope : Text × List Text
  disableFileAccess : Bool
  disableUrlAccess : Bool
  attachments : List MailAttachment
  headers : Option CustomHeaders

/-- `feedbackField`. -/
def feedbackField (value : Text) : Text :=
  let safe := (value.filter fun c => c.isAlphanum || c = '.' || c = '_' || c = '-').take 64
  if safe = [] then "none".toList else safe

/-- A value that is there and not empty. -/
def truthy (value : Option Text) : Option Text := value.filter (· ≠ [])

/-- `args.from.split("@")[1]`. -/
def MxGroupMessage.senderDomain (args : MxGroupMessage) : Option Text := (args.sender.splitOn '@')[1]?

/-- `carriesListUnsubscribe`. -/
def carriesListUnsubscribe (args : MxGroupMessage) : Bool :=
  decide (args.category ≠ some .transactional) && !args.autoSubmitted

/-- `stripCrlf`. -/
def stripCrlf (v : Text) : Text := v.filter fun c => c ≠ '\r' ∧ c ≠ '\n'

/-- The `List-Unsubscribe` pair. -/
def unsubscribeHeaders (unsubscribe : Option UnsubscribeOptions) (senderDomain : Text) : List HeaderEntry :=
  let url := truthy ((truthy (unsubscribe.bind (·.url))).map stripCrlf)
  let asked := unsubscribe.bind (·.mailto)
  let mailto := if asked = some none ∧ url.isSome then none
    else some (stripCrlf ((asked.bind id).getD ("unsubscribe@" ++ senderDomain)))
  let links := (mailto.map fun address => "<mailto:".toList ++ address ++ ['>']).toList ++
    (url.map fun link => '<' :: link ++ ['>']).toList
  ("List-Unsubscribe".toList, join ", " links) ::
    (url.map fun _ => ("List-Unsubscribe-Post".toList, "List-Unsubscribe=One-Click".toList)).toList

section Build

variable (keyTag : Text → Text)

/-- `feedbackIdHeader`; `keyTag` is the hash of an API key's id, in hex, cut to 12 digits. -/
def feedbackIdHeader (feedback : FeedbackSource) (senderDomain : Text) : Text :=
  let key := (truthy feedback.apiKeyId).elim "system".toList keyTag
  join ":" ([feedback.source, key, senderDomain, "bunmail".toList].map feedbackField)

/-- The assignments to `headers`, in their order. -/
def assignedHeaders (args : MxGroupMessage) : List HeaderEntry :=
  (truthy args.senderDomain).elim [] (fun domain =>
    (if carriesListUnsubscribe args then unsubscribeHeaders args.unsubscribe domain else []) ++
      (args.feedback.map fun feedback => ("Feedback-ID".toList, feedbackIdHeader keyTag feedback domain)).toList) ++
  (if args.autoSubmitted then [("Auto-Submitted".toList, "auto-generated".toList),
    ("X-Auto-Response-Suppress".toList, "All".toList)] else []) ++
  args.report.elim [] fun report => [("TLS-Report-Domain".toList, stripCrlf report.domain),
    ("TLS-Report-Submitter".toList, stripCrlf report.submitter)]

/-- `headers[name] = value` for each. -/
def setHeaders (headers : CustomHeaders) (assigned : List HeaderEntry) : CustomHeaders :=
  assigned.foldl (fun headers e => headers.put e.1 e.2) headers

/-- `buildMailOptions`. -/
def buildMailOptions (args : MxGroupMessage) : MailOptions :=
  let headers := setHeaders args.headers (assignedHeaders keyTag args)
  { sender := (truthy args.fromName).elim (.text args.sender) fun name => .mailbox name args.sender
    to_ := args.headerTo
    cc := args.headerCc
    replyTo := args.replyTo
    subject := args.subject
    html := args.html
    text := args.text
    messageId := args.messageId
    envelope := (args.envelopeFrom.getD args.sender, args.recipients)
    disableFileAccess := true
    disableUrlAccess := true
    attachments := args.attachments.map fun a => {
      filename := a.filename
      content := a.content
      contentType := a.contentType
      cid := a.contentId
      contentDisposition := if a.contentId.isSome then "inline".toList else "attachment".toList }
    headers := if headers.rows = [] then none else some headers }

end Build

/-- The header fields that the options set. -/
def MailOptions.emitted (o : MailOptions) : List (Text × HeaderValue) :=
  [("From".toList, o.sender), ("To".toList, .text o.to_)] ++
    (o.cc.map fun cc => ("Cc".toList, .text cc)).toList ++
    (o.replyTo.map fun replyTo => ("Reply-To".toList, .text replyTo)).toList ++
    [("Subject".toList, .text o.subject), ("Message-ID".toList, .text o.messageId)] ++
    (o.headers.elim [] Table.rows).map fun e => (e.1, .text e.2)

/-- The message without custom headers. -/
def MxGroupMessage.plain (args : MxGroupMessage) : MxGroupMessage := { args with headers := Table.empty }

/-! ## Names -/

/-- The names that BunMail sets on a message of the queue. -/
def OWN_HEADERS : List Text :=
  ["From", "To", "Cc", "Reply-To", "Subject", "Message-ID", "List-Unsubscribe", "List-Unsubscribe-Post",
    "Feedback-ID"].map String.toList

section Names

variable {toLowerCase : Text → Text} {keyTag : Text → Text} {args : MxGroupMessage} {headers : CustomHeaders}
  {assigned : List HeaderEntry}

theorem toLowerCase_own (hlow : IsLowerCase toLowerCase) {name : Text} (h : name ∈ OWN_HEADERS) :
    toLowerCase name = asciiLower name := by
  have hascii : ∀ n ∈ OWN_HEADERS, n.all (fun c => decide (c.toNat < 128)) = true := by decide
  exact (hlow.lowers name).eq_map_toLower fun c hc =>
    of_decide_eq_true (List.all_eq_true.mp (hascii name h) c hc)

theorem own_reserved (hlow : IsLowerCase toLowerCase) {name : Text} (h : name ∈ OWN_HEADERS) :
    toLowerCase name ∈ RESERVED_HEADER_NAMES := by
  have hreserved : ∀ n ∈ OWN_HEADERS, asciiLower n ∈ RESERVED_HEADER_NAMES := by decide
  rw [toLowerCase_own hlow h]
  exact hreserved name h

theorem own_distinct (hlow : IsLowerCase toLowerCase) : (OWN_HEADERS.map toLowerCase).Nodup := by
  have hmap : OWN_HEADERS.map toLowerCase = OWN_HEADERS.map asciiLower :=
    List.map_congr_left fun _ h => toLowerCase_own hlow h
  rw [hmap]
  decide

/-- New names are added at the end. -/
theorem setHeaders_rows (hnodup : (assigned.map Prod.fst).Nodup)
    (hnew : ∀ name ∈ assigned.map Prod.fst, name ∉ headers.keys) :
    (setHeaders headers assigned).rows = headers.rows ++ assigned := by
  unfold setHeaders
  induction assigned generalizing headers with
  | nil => exact (List.append_nil _).symm
  | cons e assigned ih =>
    obtain ⟨hfirst, hrest⟩ := List.nodup_cons.mp hnodup
    have hput : e.1 ∉ headers.keys := hnew e.1 List.mem_cons_self
    rw [List.foldl_cons, ih hrest, Table.put_rows_of_notMem hput, List.append_assoc, List.singleton_append]
    intro name hname hmem
    rcases Table.mem_keys_put.mp hmem with rfl | hmem
    · exact hfirst hname
    · exact hnew name (List.mem_cons_of_mem _ hname) hmem

/-- What is assigned on a message of the queue: some of the three, in their order. -/
theorem assignedHeaders_sublist (hauto : args.autoSubmitted = false) (hreport : args.report = none) :
    ((assignedHeaders keyTag args).map Prod.fst).Sublist
      ["List-Unsubscribe".toList, "List-Unsubscribe-Post".toList, "Feedback-ID".toList] := by
  unfold assignedHeaders
  rw [hauto, hreport, if_neg Bool.false_ne_true, List.append_nil, Option.elim_none, List.append_nil]
  cases truthy args.senderDomain with
  | none => exact List.nil_sublist _
  | some domain =>
    rw [Option.elim_some, List.map_append]
    have hlinks : ((if carriesListUnsubscribe args then unsubscribeHeaders args.unsubscribe domain
        else []).map Prod.fst).Sublist ["List-Unsubscribe".toList, "List-Unsubscribe-Post".toList] := by
      split
      · unfold unsubscribeHeaders
        rw [List.map_cons]
        refine List.Sublist.cons_cons _ ?_
        cases truthy ((truthy (args.unsubscribe.bind (·.url))).map stripCrlf) with
        | none => exact List.nil_sublist _
        | some url => exact List.Sublist.refl _
      · exact List.nil_sublist _
    have hfeedback : ((args.feedback.map fun feedback =>
        ("Feedback-ID".toList, feedbackIdHeader keyTag feedback domain)).toList.map Prod.fst).Sublist
        ["Feedback-ID".toList] := by
      cases args.feedback with
      | none => exact List.nil_sublist _
      | some feedback => exact List.Sublist.refl _
    exact hlinks.append hfeedback

/-- The fields that the options set besides `headers`. -/
def addressFields (args : MxGroupMessage) : List (Text × HeaderValue) :=
  [("From".toList, (truthy args.fromName).elim (.text args.sender) fun name => .mailbox name args.sender),
    ("To".toList, .text args.headerTo)] ++
    (args.headerCc.map fun cc => ("Cc".toList, .text cc)).toList ++
    (args.replyTo.map fun replyTo => ("Reply-To".toList, .text replyTo)).toList ++
    [("Subject".toList, .text args.subject), ("Message-ID".toList, .text args.messageId)]

theorem emitted_eq : (buildMailOptions keyTag args).emitted = addressFields args ++
    (setHeaders args.headers (assignedHeaders keyTag args)).rows.map fun e => (e.1, .text e.2) := by
  unfold MailOptions.emitted
  refine congrArg (addressFields args ++ ·) (congrArg _ ?_)
  show Option.elim (if (setHeaders args.headers (assignedHeaders keyTag args)).rows = [] then none
    else some (setHeaders args.headers (assignedHeaders keyTag args))) [] Table.rows = _
  split
  · rename_i h
    exact h.symm
  · rfl

theorem addressFields_sublist : ((addressFields args).map Prod.fst).Sublist
    ["From".toList, "To".toList, "Cc".toList, "Reply-To".toList, "Subject".toList, "Message-ID".toList] := by
  have hoption : ∀ (value : Option Text) (name : Text),
      ((value.map fun v => (name, HeaderValue.text v)).toList.map Prod.fst).Sublist [name] := fun value name => by
    cases value with
    | none => exact List.nil_sublist _
    | some v => exact List.Sublist.refl _
  unfold addressFields
  rw [List.map_append, List.map_append, List.map_append]
  exact (((List.Sublist.refl ["From".toList, "To".toList]).append (hoption args.headerCc _)).append
    (hoption args.replyTo _)).append (List.Sublist.refl _)

theorem map_fst_entries (l : List HeaderEntry) :
    (l.map fun e => (e.1, HeaderValue.text e.2)).map Prod.fst = l.map Prod.fst := by
  rw [List.map_map]
  rfl

theorem assigned_nodup (keyTag : Text → Text) (hauto : args.autoSubmitted = false) (hreport : args.report = none) :
    ((assignedHeaders keyTag args).map Prod.fst).Nodup :=
  (assignedHeaders_sublist hauto hreport).nodup (by decide)

theorem assigned_own (hauto : args.autoSubmitted = false) (hreport : args.report = none) {name : Text}
    (h : name ∈ (assignedHeaders keyTag args).map Prod.fst) : name ∈ OWN_HEADERS := by
  have hown : ∀ n ∈ ["List-Unsubscribe".toList, "List-Unsubscribe-Post".toList, "Feedback-ID".toList],
      n ∈ OWN_HEADERS := by decide
  exact hown name ((assignedHeaders_sublist hauto hreport).subset h)

/-- The message without custom headers has BunMail's own fields. -/
theorem emitted_plain (hauto : args.autoSubmitted = false) (hreport : args.report = none) :
    (buildMailOptions keyTag args.plain).emitted =
      addressFields args ++ (assignedHeaders keyTag args).map fun e => (e.1, .text e.2) := by
  have hrows : (setHeaders Table.empty (assignedHeaders keyTag args)).rows = assignedHeaders keyTag args :=
    setHeaders_rows (assigned_nodup keyTag hauto hreport) fun _ _ h => absurd h List.not_mem_nil
  rw [emitted_eq]
  exact congrArg (fun l : List HeaderEntry =>
    addressFields args ++ l.map fun e => (e.1, HeaderValue.text e.2)) hrows

/-- Own fields have own names, each once. -/
theorem emitted_plain_sublist (keyTag : Text → Text) (hauto : args.autoSubmitted = false) (hreport : args.report = none) :
    ((buildMailOptions keyTag args.plain).emitted.map Prod.fst).Sublist OWN_HEADERS := by
  rw [emitted_plain hauto hreport, List.map_append, map_fst_entries]
  exact addressFields_sublist.append (assignedHeaders_sublist hauto hreport)

/-- **Custom headers come in between.** -/
theorem emitted_perm (hlow : IsLowerCase toLowerCase) (hauto : args.autoSubmitted = false)
    (hreport : args.report = none) (hallowed : Allowed toLowerCase args.headers.rows) :
    (buildMailOptions keyTag args).emitted.Perm
      ((buildMailOptions keyTag args.plain).emitted ++ args.headers.rows.map fun e => (e.1, .text e.2)) := by
  have hnew : ∀ name ∈ (assignedHeaders keyTag args).map Prod.fst, name ∉ args.headers.keys := by
    intro name hname hmem
    obtain ⟨e, he, rfl⟩ := List.mem_map.mp hmem
    exact (hallowed.acceptable e he).not_reserved.1 (own_reserved hlow (assigned_own hauto hreport hname))
  rw [emitted_eq, emitted_plain hauto hreport, setHeaders_rows (assigned_nodup keyTag hauto hreport) hnew,
    List.map_append, List.append_assoc]
  exact List.perm_append_comm.append_left _

/-- **No two fields have one name.** -/
theorem emitted_nodup (hlow : IsLowerCase toLowerCase) (hauto : args.autoSubmitted = false)
    (hreport : args.report = none) (hallowed : Allowed toLowerCase args.headers.rows) :
    ((buildMailOptions keyTag args).emitted.map fun f => toLowerCase f.1).Nodup := by
  have hmap : ∀ l : List (Text × HeaderValue), l.map (fun f => toLowerCase f.1) =
      (l.map Prod.fst).map toLowerCase := fun l => by
    rw [List.map_map]
    rfl
  rw [((emitted_perm hlow hauto hreport hallowed).map _).nodup_iff, hmap, List.map_append, List.map_append,
    map_fst_entries]
  have hown := emitted_plain_sublist keyTag hauto hreport
  refine ((own_distinct hlow).sublist (hown.map _)).append ?_ fun lower hmem hcustom => ?_
  · rw [List.map_map]
    exact hallowed.distinct
  · obtain ⟨name, hname, rfl⟩ := List.mem_map.mp hmem
    obtain ⟨name', hname', heq⟩ := List.mem_map.mp hcustom
    obtain ⟨e, he, rfl⟩ := List.mem_map.mp hname'
    exact (hallowed.acceptable e he).not_reserved.1 (heq ▸ own_reserved hlow (hown.subset hname))

end Names

/-- Headers of a submission: a duplicate, a reserved name, a name that is an array index. -/
def submitted : List HeaderEntry :=
  [("X-Tag".toList, "a".toList), ("42".toList, "b".toList), ("x-tag".toList, "c".toList),
    ("BCC".toList, "d@e.example".toList), ("__proto__".toList, "f".toList)]

/-- Its message to one recipient, from a domain without unsubscribe settings. -/
def submittedMessage : MxGroupMessage where
  recipients := ["g@h.example".toList]
  sender := "i@j.example".toList
  fromName := none
  envelopeFrom := none
  headerTo := "g@h.example".toList
  headerCc := none
  replyTo := none
  subject := "k".toList
  html := none
  text := some "l".toList
  messageId := "<m@j.example>".toList
  headers := safeCustomHeaders asciiLower (some (filterCustomHeaders asciiLower submitted).1)
  attachments := []
  unsubscribe := none
  feedback := some ⟨"smtp".toList, none⟩
  autoSubmitted := false
  category := none
  report := none

end BunMail.Emails
