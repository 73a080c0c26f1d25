import BunMail.Inbound.DkimSigned

/-!
# The header fields BunMail signs

The `h=` list of `dkim-signer.service.ts`.  The data it stands for says, for every over-signed name, how
many fields have it and what they are.
-/

namespace BunMail.Emails.DkimSigner

open CodeUnits Lines Inbound.DkimCanonical

/-! ## The code -/

def DKIM_SIGNED_HEADERS : List CodeUnits :=
  [of "From", of "Sender", of "Reply-To", of "Subject", of "Date", of "Message-ID", of "To", of "Cc",
    of "MIME-Version", of "Content-Type", of "Content-Transfer-Encoding", of "Content-ID",
    of "Content-Description", of "Resent-Date", of "Resent-From", of "Resent-Sender", of "Resent-To",
    of "Resent-Cc", of "Resent-Message-ID", of "In-Reply-To", of "References", of "List-Id",
    of "List-Help", of "List-Unsubscribe", of "List-Unsubscribe-Post", of "List-Subscribe",
    of "List-Post", of "List-Owner", of "List-Archive", of "Feedback-ID", of "Content-Disposition",
    of "Auto-Submitted", of "TLS-Report-Domain", of "TLS-Report-Submitter"]

def DKIM_OVERSIGNED_HEADERS : List CodeUnits :=
  [of "from", of "sender", of "reply-to", of "to", of "cc", of "subject", of "date", of "message-id",
    of "in-reply-to", of "references", of "mime-version", of "content-type",
    of "content-transfer-encoding", of "list-unsubscribe", of "list-unsubscribe-post",
    of "feedback-id", of "content-disposition", of "auto-submitted"]

/-- How often a name is listed. -/
def listed (fields : List HeaderField) (name : CodeUnits) : ℕ :=
  (byName fields name).length + if name ∈ DKIM_OVERSIGNED_HEADERS then 1 else 0

/-- The lower case of a header's name. -/
def signedNames : List CodeUnits := DKIM_SIGNED_HEADERS.map lowerAscii

def signedHeaderNames (fields : List HeaderField) : List CodeUnits :=
  signedNames.flatMap fun name => List.replicate (listed fields name) name

/-! ## The list -/

variable {fields : List HeaderField} {name l : CodeUnits}

theorem nodup_signedNames : signedNames.Nodup := by decide +kernel

theorem mem_signedNames (h : name ∈ DKIM_OVERSIGNED_HEADERS) : name ∈ signedNames := by
  have hall : DKIM_OVERSIGNED_HEADERS.all (decide <| · ∈ signedNames) = true := by decide +kernel
  exact of_decide_eq_true (List.all_eq_true.mp hall name h)

/-- A signed name has no white space and no colon. -/
theorem plain_signedNames (h : name ∈ signedNames) :
    name ≠ [] ∧ ∀ u ∈ name, isFws u = false ∧ u ≠ 0x3a := by
  have hall : signedNames.all (fun name => decide (name ≠ []) &&
      name.all fun u => !isFws u && decide (u ≠ 0x3a)) = true := by decide +kernel
  have hname := List.all_eq_true.mp hall name h
  rw [Bool.and_eq_true, decide_eq_true_iff, List.all_eq_true] at hname
  refine ⟨hname.1, fun u hu => ?_⟩
  have hunit := hname.2 u hu
  rw [Bool.and_eq_true, decide_eq_true_iff, Bool.not_eq_true'] at hunit
  exact hunit

theorem count_flatMap_replicate {names : List CodeUnits} (f : CodeUnits → ℕ) (hnodup : names.Nodup)
    (h : name ∈ names) : (names.flatMap fun n => List.replicate (f n) n).count name = f name := by
  induction names with
  | nil => exact absurd h List.not_mem_nil
  | cons first names ih =>
    obtain ⟨hfirst, hrest⟩ := List.nodup_cons.mp hnodup
    rw [List.flatMap_cons, List.count_append]
    rcases List.mem_cons.mp h with rfl | hmem
    · have hnone : name ∉ names.flatMap fun n => List.replicate (f n) n := by
        intro hmem
        obtain ⟨other, hother, hname⟩ := List.mem_flatMap.mp hmem
        rw [List.eq_of_mem_replicate hname] at hfirst
        exact hfirst hother
      rw [List.count_replicate_self, List.count_eq_zero.mpr hnone, Nat.add_zero]
    · have hne : first ≠ name := fun heq => hfirst (heq ▸ hmem)
      rw [List.count_replicate, if_neg (by simpa using hne), Nat.zero_add, ih hrest hmem]

/-- An over-signed name is listed once more than it occurs. -/
theorem count_signedHeaderNames (h : name ∈ DKIM_OVERSIGNED_HEADERS) :
    (signedHeaderNames fields).count name = (byName fields name).length + 1 := by
  unfold signedHeaderNames
  rw [count_flatMap_replicate _ nodup_signedNames (mem_signedNames h), listed, if_pos h]

theorem mem_signedHeaderNames (h : name ∈ signedHeaderNames fields) : name ∈ signedNames := by
  obtain ⟨other, hother, hname⟩ := List.mem_flatMap.mp h
  rwa [List.eq_of_mem_replicate hname]

/-! ## A signed line -/

section Line

variable {message : List UInt8} {field : HeaderField} {before core a b : CodeUnits}

theorem unfold_solid (h : ∀ u ∈ core, isFws u = false) (b : CodeUnits) :
    unfold (core ++ b) = core ++ unfold b := by
  induction core with
  | nil => rfl
  | cons u core ih =>
    have hu := h u List.mem_cons_self
    have hcr : u ≠ 0x0d := by rintro rfl; exact absurd hu (by decide)
    have hlf : u ≠ 0x0a := by rintro rfl; exact absurd hu (by decide)
    have hhere := unfold_append hcr hlf [] (core ++ b)
    rw [List.nil_append] at hhere
    rw [List.cons_append, hhere, ih fun v hv => h v (List.mem_cons_of_mem _ hv)]
    rfl

/-- Unfolding leaves a name without white space as it is. -/
theorem trimFws_unfold (hne : trimFws before ≠ []) (h : ∀ u ∈ trimFws before, isFws u = false) :
    trimFws (unfold before) = trimFws before := by
  obtain ⟨a, b, hsplit, ha, hb⟩ := exists_stripEnds isFws before
  have hcore : stripEnds isFws before = trimFws before := rfl
  rw [hcore] at hsplit
  obtain ⟨u, core, hname⟩ := List.exists_cons_of_ne_nil hne
  have hu := h u (by rw [hname]; exact List.mem_cons_self)
  have hcr : u ≠ 0x0d := by rintro rfl; exact absurd hu (by decide)
  have hlf : u ≠ 0x0a := by rintro rfl; exact absurd hu (by decide)
  have hrest : ∀ v ∈ core, isFws v = false := fun v hv =>
    h v (by rw [hname]; exact List.mem_cons_of_mem _ hv)
  have hunfold : unfold before = unfold a ++ (trimFws before ++ unfold b) := by
    conv_lhs => rw [hsplit, hname, List.cons_append]
    rw [unfold_append hcr hlf, unfold_solid hrest, hname]
    rfl
  rw [hunfold]
  exact stripEnds_append (fun v hv => ha v (mem_unfold hv)) (solid_stripEnds isFws before)
    fun v hv => hb v (mem_unfold hv)

/-- A field with a signed name comes out with that name in front of the colon. -/
theorem relaxedHeader_signed (hmem : field ∈ (splitMessage message).1) (hname : field.name ∈ signedNames) :
    ∃ value, relaxedHeader field.raw = field.name ++ 0x3a :: value := by
  obtain ⟨hne, hplain⟩ := plain_signedNames hname
  have hfield := congrArg HeaderField.name (splitMessage_field hmem)
  unfold headerField at hfield
  dsimp only at hfield
  cases hcut : cut? [0x3a] field.raw with
  | none =>
    rw [hcut] at hfield
    exact absurd hfield hne
  | some cut =>
    rw [hcut] at hfield
    dsimp only at hfield
    obtain ⟨hraw, hcolon⟩ := firstCut_singleton.mp (cut?_eq_some.mp hcut)
    have hsolid : ∀ u ∈ trimFws cut.1, isFws u = false := by
      intro u hu
      rw [← isFws_lower]
      exact (hplain (lower u) (by rw [hfield]; exact List.mem_map_of_mem hu)).1
    have htrim : trimFws cut.1 ≠ [] := by
      rintro hnil
      rw [hnil] at hfield
      exact hne hfield
    refine ⟨stripEnds isWsp (reduceWsp (unfold cut.2)), ?_⟩
    rw [hraw, relaxedHeader_colon hcolon, trimFws_unfold htrim hsolid, hfield]

end Line

/-! ## The signed data -/

/-- The name in front of the colon. -/
def lineName (line : CodeUnits) : CodeUnits := line.takeWhile (· ≠ 0x3a)

theorem latin1_inj {s t : CodeUnits} (hs : Latin s) (ht : Latin t) (h : latin1 s = latin1 t) : s = t := by
  have hback : ∀ s : CodeUnits, Latin s → (latin1 s).map UInt8.toUInt16 = s := by
    intro s hs
    unfold latin1
    rw [List.map_map]
    refine (List.map_congr_left fun u hu => ?_).trans (List.map_id s)
    have hu := hs u hu
    refine UInt16.toNat_inj.mp ?_
    rw [UInt16.lt_iff_toNat_lt] at hu
    show u.toNat % 2 ^ 8 = u.toNat
    exact Nat.mod_eq_of_lt hu
  rw [← hback s hs, ← hback t ht, h]

/-- Closed lines without line feeds are known by their text. -/
theorem closed_inj {ls ls' : List CodeUnits} (h : ∀ l ∈ ls, 0x0a ∉ l) (h' : ∀ l ∈ ls', 0x0a ∉ l)
    (heq : ls.flatMap (· ++ crlf) = ls'.flatMap (· ++ crlf)) : ls = ls' := by
  have hlines : ∀ ls : List CodeUnits, (∀ l ∈ ls, 0x0a ∉ l) →
      lines 0x0d 0x0a (ls.flatMap (· ++ crlf)) = ls ++ [[]] := by
    intro ls h
    have hclosed : ls.flatMap (· ++ crlf) = joinLines 0x0d 0x0a (ls ++ [[]]) := by
      by_cases hnone : ls = []
      · rw [hnone]
        rfl
      · rw [joinLines_concat hnone]
        exact (joinLines_append_break hnone).symm
    rw [hclosed]
    refine lines_join (by decide) (by simp) fun l hl => ?_
    rcases List.mem_append.mp hl with hl | hl
    · exact fun hbreak => h l hl (hbreak.subset (by simp))
    · rw [List.mem_singleton.mp hl]
      exact unbroken_nil
  have hsame := congrArg (lines 0x0d 0x0a) heq
  rw [hlines ls h, hlines ls' h'] at hsame
  exact List.append_cancel_right hsame

variable {message message' : List UInt8} {signature field : HeaderField} {names : List CodeUnits}

/-- The lines of the selected fields. -/
def signedLines (fields : List HeaderField) (names : List CodeUnits) : List CodeUnits :=
  (selectHeaders fields names).map fun field => relaxedHeader field.raw

theorem signedLine (hl : l ∈ signedLines (splitMessage message).1 names) : 0x0a ∉ l ∧ Latin l := by
  obtain ⟨field, hfield, rfl⟩ := List.mem_map.mp hl
  have hmem := (mem_selectHeaders hfield).1
  exact ⟨relaxedHeader_noLf (splitMessage_fieldText hmem), relaxedHeader_latin (splitMessage_latin hmem)⟩

/-- The data says what the lines are. -/
theorem signedLines_eq (h : signedHeaderData (splitMessage message).1 signature .relaxed names =
      signedHeaderData (splitMessage message').1 signature .relaxed names) :
    signedLines (splitMessage message).1 names = signedLines (splitMessage message').1 names := by
  have hdata : ∀ fields, signedHeaderData fields signature .relaxed names =
      latin1 ((signedLines fields names).flatMap (· ++ crlf)) ++
        latin1 (emptySignatureValue (relaxedHeader signature.raw)) := by
    intro fields
    unfold signedLines latin1
    rw [List.flatMap_map, ← List.map_append]
    rfl
  have hlatin : ∀ message, Latin ((signedLines (splitMessage message).1 names).flatMap (· ++ crlf)) := by
    intro message u hu
    obtain ⟨l, hl, hu⟩ := List.mem_flatMap.mp hu
    rcases List.mem_append.mp hu with hu | hu
    · exact (signedLine hl).2 u hu
    · exact latin_crlf u hu
  rw [hdata, hdata] at h
  exact closed_inj (fun l hl => (signedLine hl).1) (fun l hl => (signedLine hl).1)
    (latin1_inj (hlatin message) (hlatin message') (List.append_cancel_right h))

theorem lineName_signed (hmem : field ∈ (splitMessage message).1) (hname : field.name ∈ signedNames) :
    lineName (relaxedHeader field.raw) = field.name := by
  obtain ⟨value, hline⟩ := relaxedHeader_signed hmem hname
  have hplain : ∀ u ∈ field.name, decide (u ≠ 0x3a) = true := fun u hu =>
    decide_eq_true ((plain_signedNames hname).2 u hu).2
  have hcolon : (0x3a :: value).takeWhile (fun u => decide (u ≠ 0x3a)) = [] := rfl
  unfold lineName
  rw [hline, List.takeWhile_append_of_pos hplain, hcolon, List.append_nil]

/-- The lines of a name are those of its fields, the last first, as many as are listed. -/
theorem filter_signedLines (hnames : ∀ n ∈ names, n ∈ signedNames) (name : CodeUnits) :
    (signedLines (splitMessage message).1 names).filter (lineName · = name) =
      (((byName (splitMessage message).1 name).map fun field => relaxedHeader field.raw).reverse).take
        (names.count name) := by
  unfold signedLines
  rw [List.filter_map, ← List.map_reverse, ← List.map_take, ← filter_selectHeaders]
  refine congrArg (List.map _) (List.filter_congr fun field hfield => ?_)
  obtain ⟨hmem, hname⟩ := mem_selectHeaders hfield
  show decide (lineName (relaxedHeader field.raw) = name) = decide (field.name = name)
  rw [lineName_signed hmem (hnames _ hname)]

/-- **The data pins every field of an over-signed name**: another header with the same data has as many
of them, with the same canonical forms, in the same order. -/
theorem overSigned_pinned
    (h : signedHeaderData (splitMessage message').1 signature .relaxed
        (signedHeaderNames (splitMessage message).1) =
      signedHeaderData (splitMessage message).1 signature .relaxed
        (signedHeaderNames (splitMessage message).1))
    (hname : name ∈ DKIM_OVERSIGNED_HEADERS) :
    (byName (splitMessage message').1 name).map (fun field => relaxedHeader field.raw) =
      (byName (splitMessage message).1 name).map fun field => relaxedHeader field.raw := by
  have hnames : ∀ n ∈ signedHeaderNames (splitMessage message).1, n ∈ signedNames := fun n hn =>
    mem_signedHeaderNames hn
  have hlines := congrArg (List.filter (lineName · = name)) (signedLines_eq h)
  rw [filter_signedLines hnames, filter_signedLines hnames, count_signedHeaderNames hname] at hlines
  generalize hforms : (byName (splitMessage message).1 name).map (fun field => relaxedHeader field.raw) =
    forms at hlines ⊢
  generalize (byName (splitMessage message').1 name).map (fun field => relaxedHeader field.raw) = forms'
    at hlines ⊢
  have hlength : (byName (splitMessage message).1 name).length = forms.length := by
    rw [← hforms, List.length_map]
  rw [hlength] at hlines
  have hcounts := congrArg List.length hlines
  rw [List.length_take, List.length_take, List.length_reverse, List.length_reverse] at hcounts
  have hcount : forms'.length = forms.length := by omega
  rw [List.take_of_length_le (by rw [List.length_reverse]; omega),
    List.take_of_length_le (by rw [List.length_reverse]; omega)] at hlines
  exact List.reverse_injective hlines

def plainFrom : List UInt8 := latin1 (of "From: a  b\n\n")

def foldedFrom : List UInt8 := latin1 (of "from:a\r\n\tb\r\n\r\n")

/-- Two messages that differ in case and in white space have the same data. -/
theorem overSigned_pinned_folded :
    (byName (splitMessage foldedFrom).1 (of "from")).map (fun field => relaxedHeader field.raw) =
      (byName (splitMessage plainFrom).1 (of "from")).map fun field => relaxedHeader field.raw := by
  have hdata : signedHeaderData (splitMessage foldedFrom).1
        ⟨of "dkim-signature", of "DKIM-Signature: v=1; b=c"⟩ .relaxed
        (signedHeaderNames (splitMessage plainFrom).1) =
      signedHeaderData (splitMessage plainFrom).1
        ⟨of "dkim-signature", of "DKIM-Signature: v=1; b=c"⟩ .relaxed
        (signedHeaderNames (splitMessage plainFrom).1) := by decide +kernel
  exact overSigned_pinned hdata (by decide +kernel)

end BunMail.Emails.DkimSigner
