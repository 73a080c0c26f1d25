import BunMail.SmtpSubmission.MessageMapper

/-!
# Delivery equals the envelope

An accepted message is delivered to its envelope, and `To` and `Cc` show nobody else and no blind
recipient, exactly while every envelope recipient has the shape of an address.  The server admits any
recipient with one `@` and no white space: one with a comma is cut in two, and one without a dot in
its domain is dropped when the email is sent.
-/

namespace BunMail.SmtpSubmission

open Recipients Text

/-- What the server admits in `RCPT TO`. -/
structure Admitted (a : Text) : Prop where
  oneAt : a.count '@' = 1
  noSpace : ∀ c ∈ a, isSpace c = false
  length : utf16Length a ≤ MAX_ADDRESS_LENGTH

section Envelope

variable {κ : Type}

/-- The trimmed, nonempty pieces of the stored `to` and `cc`. -/
def PreparedAddresses.shown (row : PreparedAddresses) : List Text :=
  (piecesOf (some row.toAddress) ++ piecesOf row.cc).filter (· ≠ [])

variable (toLowerCase : Text → Text)

/-- The envelope of a message, lowercased. -/
def SubmittedMessage.envelope (m : SubmittedMessage κ) : List Text := m.rcptTo.map toLowerCase

/-- The addresses of its header fields, lowercased. -/
def SubmittedMessage.headers (m : SubmittedMessage κ) : List Text :=
  (extractAddresses m.to_ ++ extractAddresses m.cc).map toLowerCase

/-- What a stored message delivers and shows. -/
structure DeliversEnvelope (m : SubmittedMessage κ) (row : PreparedAddresses) : Prop where
  /-- The recipients read back from the stored fields are the envelope. -/
  recipients : ∀ k, k ∈ recipientOrder toLowerCase row.toAddress row.cc row.bcc ↔
    k ∈ m.envelope toLowerCase
  /-- `To` and `Cc` show addresses of the envelope that are in a header, when a header names
  someone. -/
  shown : ∀ a ∈ row.shown, toLowerCase a ∈ m.envelope toLowerCase ∧
    (m.headers toLowerCase ≠ [] → toLowerCase a ∈ m.headers toLowerCase)
  /-- Who is in no header is shown nowhere, once some header address is in the envelope. -/
  blind : (∃ k ∈ m.headers toLowerCase, k ∈ m.envelope toLowerCase) →
    ∀ k ∈ m.envelope toLowerCase, k ∉ m.headers toLowerCase → k ∉ row.shown.map toLowerCase

variable {toLowerCase} {m : SubmittedMessage κ} {row : PreparedAddresses}
  {refuses : SendEmailInput κ → Bool}

theorem trim_of_admitted {a : Text} (h : Admitted a) : trim a = a := trim_of_all h.noSpace

theorem ne_nil_of_admitted {a : Text} (h : Admitted a) : a ≠ [] := by
  rintro rfl
  have hone := h.oneAt
  rw [List.count_nil] at hone
  omega

theorem ne_nil_of_lowers {s t : Text} (h : Lowers s t) (hs : s ≠ []) : t ≠ [] :=
  fun ht => hs (h.eq_nil_iff.mpr ht)

theorem trim_of_mem_extractAddresses {field : List (Option Text)} {a : Text}
    (ha : a ∈ extractAddresses field) : trim a = a := by
  obtain ⟨address, _, heq⟩ := List.mem_filterMap.mp ha
  dsimp only at heq
  split_ifs at heq
  rw [← Option.some.inj heq, trim_trim]

/-! ## What the mapper makes of it -/

section Shape

variable (hlow : IsLowerCase toLowerCase) (hrcpt : ∀ a ∈ m.rcptTo, Admitted a)
include hlow hrcpt

theorem envelopeOf_parts : envelopeOf toLowerCase m.parts = m.envelope toLowerCase := by
  unfold envelopeOf SubmittedMessage.envelope
  have hmap : m.parts.envelopeRecipients.map (fun a => toLowerCase (trim a)) =
      m.rcptTo.map toLowerCase :=
    List.map_congr_left fun a ha => congrArg toLowerCase (trim_of_admitted (hrcpt a ha))
  rw [hmap, List.filter_eq_self]
  intro k hk
  obtain ⟨a, ha, rfl⟩ := List.mem_map.mp hk
  exact decide_eq_true (ne_nil_of_lowers (hlow.lowers a) (ne_nil_of_admitted (hrcpt a ha)))

/-- The entries of a header's list are addresses of the header that are in the envelope. -/
theorem mem_visible {field : List (Option Text)} {a : Text}
    (ha : a ∈ dedupe toLowerCase ((extractAddresses field).filter (inEnvelope toLowerCase m.parts))) :
    a ∈ extractAddresses field ∧ toLowerCase a ∈ m.envelope toLowerCase := by
  obtain ⟨hne, raw, hraw, rfl⟩ := mem_dedupe ha
  obtain ⟨hfield, hin⟩ := List.mem_filter.mp hraw
  unfold inEnvelope at hin
  rw [envelopeOf_parts hlow hrcpt, decide_eq_true_eq] at hin
  rw [trim_of_mem_extractAddresses hfield] at hin ⊢
  exact ⟨hfield, hin⟩

/-- The lowercased entries of a header's list. -/
theorem mem_lower_visible {field : List (Option Text)} {k : Text} :
    k ∈ (dedupe toLowerCase
        ((extractAddresses field).filter (inEnvelope toLowerCase m.parts))).map toLowerCase ↔
      k ∈ (extractAddresses field).map toLowerCase ∧ k ∈ m.envelope toLowerCase := by
  rw [mem_lower_dedupe]
  constructor
  · rintro ⟨raw, hraw, _, rfl⟩
    obtain ⟨hfield, hin⟩ := List.mem_filter.mp hraw
    unfold inEnvelope at hin
    rw [envelopeOf_parts hlow hrcpt, decide_eq_true_eq] at hin
    rw [trim_of_mem_extractAddresses hfield] at hin ⊢
    exact ⟨List.mem_map_of_mem hfield, hin⟩
  · rintro ⟨hk, hin⟩
    obtain ⟨a, hfield, rfl⟩ := List.mem_map.mp hk
    have htrim := trim_of_mem_extractAddresses hfield
    refine ⟨a, List.mem_filter.mpr ⟨hfield, ?_⟩, ?_, by rw [htrim]⟩
    · unfold inEnvelope
      rw [envelopeOf_parts hlow hrcpt, htrim]
      exact decide_eq_true hin
    · rw [htrim]
      exact (mem_extractAddresses hfield).1

omit hlow in
/-- The lowercased addresses of a list of envelope recipients. -/
theorem mem_lower_rcpt {l : List Text} (hl : ∀ a ∈ l, a ∈ m.rcptTo) {k : Text} :
    k ∈ (dedupe toLowerCase l).map toLowerCase ↔ k ∈ l.map toLowerCase := by
  rw [mem_lower_dedupe, List.mem_map]
  constructor
  · rintro ⟨a, ha, _, rfl⟩
    exact ⟨a, ha, by rw [trim_of_admitted (hrcpt a (hl a ha))]⟩
  · rintro ⟨a, ha, rfl⟩
    have htrim := trim_of_admitted (hrcpt a (hl a ha))
    exact ⟨a, ha, by rw [htrim]; exact ne_nil_of_admitted (hrcpt a (hl a ha)), by rw [htrim]⟩

end Shape

/-! ## Envelopes of addresses -/

/-- The lists behind the fields of a send. -/
structure Lists (toLowerCase : Text → Text) (m : SubmittedMessage κ) (to_ cc bcc : List Text) :
    Prop where
  ne_nil : to_ ≠ []
  addresses : ∀ a ∈ to_ ++ cc ++ bcc, isEmailAddress a = true
  all : ∀ k, k ∈ (to_ ++ cc ++ bcc).map toLowerCase ↔ k ∈ m.envelope toLowerCase
  shown : ∀ a ∈ to_ ++ cc, m.headers toLowerCase ≠ [] → toLowerCase a ∈ m.headers toLowerCase

section Addresses

variable (hlow : IsLowerCase toLowerCase) (hrcpt : ∀ a ∈ m.rcptTo, Admitted a)
  (hshape : ∀ a ∈ m.rcptTo, EMAIL_RE a = true)
include hlow hrcpt hshape

omit hlow in
theorem isEmailAddress_rcpt {a : Text} (ha : a ∈ m.rcptTo) : isEmailAddress a = true := by
  unfold isEmailAddress
  rw [Bool.and_eq_true, decide_eq_true_eq]
  exact ⟨(hrcpt a ha).length, hshape a ha⟩

theorem isEmailAddress_visible {field : List (Option Text)} {a : Text}
    (ha : a ∈ dedupe toLowerCase ((extractAddresses field).filter (inEnvelope toLowerCase m.parts))) :
    isEmailAddress a = true := by
  obtain ⟨hfield, hin⟩ := mem_visible hlow hrcpt ha
  obtain ⟨b, hb, hlower⟩ := List.mem_map.mp hin
  unfold isEmailAddress
  rw [Bool.and_eq_true, decide_eq_true_eq]
  exact ⟨(mem_extractAddresses hfield).2, EMAIL_RE_of_lower_eq hlow hlower ▸ hshape b hb⟩

omit hlow hrcpt hshape in
theorem visibleIn_join {to_ cc : List Text} (ht : ∀ a ∈ to_, EMAIL_RE a = true)
    (hc : ∀ a ∈ cc, EMAIL_RE a = true) (hne : to_ ++ cc ≠ []) (hlow : IsLowerCase toLowerCase) :
    visibleIn toLowerCase (join ", " to_) (join ", " cc) = (to_ ++ cc).map toLowerCase := by
  have hall : ∀ a ∈ to_ ++ cc, EMAIL_RE a = true :=
    fun a ha => (List.mem_append.mp ha).elim (ht a) (hc a)
  have hne' : ∀ {l : List Text}, (∀ a ∈ l, EMAIL_RE a = true) → ∀ a ∈ l, a ≠ [] :=
    fun h a ha => ne_nil_of_EMAIL_RE (h a ha)
  have hjoin : join ", " ([join ", " to_, join ", " cc].filter (· ≠ [])) = join ", " (to_ ++ cc) := by
    by_cases h₁ : to_ = []
    · subst h₁
      have h₂ : cc ≠ [] := hne
      have hj : join ", " cc ≠ [] := (join_eq_nil_iff (hne' hc)).not.mpr h₂
      show join ", " ([[], join ", " cc].filter (· ≠ [])) = join ", " cc
      simp only [ne_eq, not_true_eq_false, decide_false, Bool.false_eq_true, not_false_eq_true,
        List.filter_cons_of_neg, hj, decide_true, List.filter_cons_of_pos, List.filter_nil]
      rfl
    · have hj : join ", " to_ ≠ [] := (join_eq_nil_iff (hne' ht)).not.mpr h₁
      by_cases h₂ : cc = []
      · subst h₂
        rw [List.append_nil]
        show join ", " ([join ", " to_, []].filter (· ≠ [])) = join ", " to_
        simp only [ne_eq, hj, not_false_eq_true, decide_true, List.filter_cons_of_pos,
          not_true_eq_false, decide_false, Bool.false_eq_true, List.filter_cons_of_neg,
          List.filter_nil]
        rfl
      · have hj' : join ", " cc ≠ [] := (join_eq_nil_iff (hne' hc)).not.mpr h₂
        rw [List.filter_eq_self.mpr, join_append h₁ h₂]
        intro a ha
        rcases List.mem_cons.mp ha with rfl | ha
        · exact decide_eq_true hj
        · rw [List.mem_singleton.mp ha]
          exact decide_eq_true hj'
  unfold visibleIn
  have hmap : ∀ l : List Text, l.map (fun a => toLowerCase (trim a)) = (l.map trim).map toLowerCase := by
    intro l
    rw [List.map_map]
    rfl
  rw [hjoin, hmap, map_trim_splitOn_join hne fun a ha =>
    ⟨comma_notMem_of_EMAIL_RE (hall a ha), trim_of_EMAIL_RE (hall a ha)⟩, List.filter_eq_self]
  intro k hk
  obtain ⟨a, ha, rfl⟩ := List.mem_map.mp hk
  exact decide_eq_true (ne_nil_of_lowers (hlow.lowers a) (hne' hall a ha))

/-- A header's entries that are in the envelope make `To` or `Cc`; everybody else is blind. -/
theorem lists_of_visible {t c : List Text}
    (ht : t = dedupe toLowerCase
      ((extractAddresses m.to_).filter (inEnvelope toLowerCase m.parts)))
    (hc : c = dedupe toLowerCase
      ((extractAddresses m.cc).filter (inEnvelope toLowerCase m.parts)))
    (hne : t ++ c ≠ []) :
    ∃ to_ bcc : List Text, toAndBcc toLowerCase m.parts (join ", " t) (join ", " c) =
        (join ", " to_, join ", " bcc) ∧ (to_ ≠ [] → Lists toLowerCase m to_ c bcc) := by
  have hemail : ∀ a ∈ t ++ c, isEmailAddress a = true := by
    intro a ha
    rcases List.mem_append.mp ha with ha | ha
    · exact isEmailAddress_visible hlow hrcpt hshape (ht ▸ ha)
    · exact isEmailAddress_visible hlow hrcpt hshape (hc ▸ ha)
  have hre : ∀ a ∈ t ++ c, EMAIL_RE a = true := fun a ha =>
    (Bool.and_eq_true_iff.mp (hemail a ha)).2
  have hnil : ∀ {l : List Text}, (∀ a ∈ l, a ∈ t ++ c) → (join ", " l = [] ↔ l = []) :=
    fun h => join_eq_nil_iff fun a ha => ne_nil_of_EMAIL_RE (hre a (h a ha))
  have ht0 := hnil fun a (ha : a ∈ t) => List.mem_append_left c ha
  have hc0 := hnil fun a (ha : a ∈ c) => List.mem_append_right t ha
  -- who is shown
  have hshown : ∀ k, k ∈ (t ++ c).map toLowerCase ↔
      k ∈ m.headers toLowerCase ∧ k ∈ m.envelope toLowerCase := by
    intro k
    unfold SubmittedMessage.headers
    rw [List.map_append, List.mem_append, List.map_append, List.mem_append, ht, hc,
      mem_lower_visible hlow hrcpt, mem_lower_visible hlow hrcpt, or_and_right]
  have hvisible := visibleIn_join (fun a ha => hre a (List.mem_append_left c ha))
    (fun a ha => hre a (List.mem_append_right t ha)) hne hlow
  obtain ⟨blind, hblind⟩ : ∃ blind, blind = m.rcptTo.filter fun addr =>
    addr ≠ [] ∧ toLowerCase (trim addr) ∉ (t ++ c).map toLowerCase := ⟨_, rfl⟩
  have hmem : ∀ a, a ∈ blind ↔ a ∈ m.rcptTo ∧ toLowerCase a ∉ (t ++ c).map toLowerCase := by
    intro a
    rw [hblind, List.mem_filter, decide_eq_true_eq]
    refine and_congr_right fun ha => ?_
    rw [trim_of_admitted (hrcpt a ha)]
    exact and_iff_right (ne_nil_of_admitted (hrcpt a ha))
  have hrcptBlind : ∀ a ∈ dedupe toLowerCase blind, isEmailAddress a = true := by
    intro a ha
    obtain ⟨_, raw, hraw, rfl⟩ := mem_dedupe ha
    have hr := ((hmem raw).mp hraw).1
    rw [trim_of_admitted (hrcpt raw hr)]
    exact isEmailAddress_rcpt hrcpt hshape hr
  have hlowerBlind : ∀ k, k ∈ (dedupe toLowerCase blind).map toLowerCase ↔
      k ∈ m.envelope toLowerCase ∧ k ∉ (t ++ c).map toLowerCase := by
    intro k
    rw [mem_lower_rcpt hrcpt fun a ha => ((hmem a).mp ha).1, List.mem_map]
    constructor
    · rintro ⟨a, ha, rfl⟩
      obtain ⟨hr, hn⟩ := (hmem a).mp ha
      exact ⟨List.mem_map_of_mem hr, hn⟩
    · rintro ⟨hk, hn⟩
      obtain ⟨a, ha, rfl⟩ := List.mem_map.mp hk
      exact ⟨a, (hmem a).mpr ⟨ha, hn⟩, rfl⟩
  -- what `To` becomes when the headers show nobody of the envelope in it
  obtain ⟨rest, hrest⟩ : ∃ rest, rest = m.rcptTo.filter (· ∉ blind) := ⟨_, rfl⟩
  have hmemRest : ∀ a ∈ rest, a ∈ m.rcptTo ∧ toLowerCase a ∈ (t ++ c).map toLowerCase := by
    intro a ha
    rw [hrest, List.mem_filter, decide_eq_true_eq] at ha
    refine ⟨ha.1, ?_⟩
    by_contra hn
    exact ha.2 ((hmem a).mpr ⟨ha.1, hn⟩)
  obtain ⟨to_, hto⟩ : ∃ to_, to_ = if t ≠ [] then t else dedupe toLowerCase rest := ⟨_, rfl⟩
  have hmemTo : ∀ a ∈ to_, isEmailAddress a = true ∧ toLowerCase a ∈ (t ++ c).map toLowerCase := by
    intro a ha
    rw [hto] at ha
    split_ifs at ha
    · exact ⟨hemail a (List.mem_append_left c ha), List.mem_map_of_mem (List.mem_append_left c ha)⟩
    · obtain ⟨_, raw, hraw, rfl⟩ := mem_dedupe ha
      obtain ⟨hr, hk⟩ := hmemRest raw hraw
      rw [trim_of_admitted (hrcpt raw hr)]
      exact ⟨isEmailAddress_rcpt hrcpt hshape hr, hk⟩
  refine ⟨to_, dedupe toLowerCase blind, ?_, fun hne' => ⟨hne', ?_, ?_, ?_⟩⟩
  · unfold toAndBcc
    have hsome : join ", " t ≠ [] ∨ join ", " c ≠ [] := by
      rw [← not_and_or, ht0, hc0, ← List.append_eq_nil_iff]
      exact hne
    rw [if_pos hsome, hvisible]
    show (if join ", " t ≠ [] then join ", " t
      else dedupeJoin toLowerCase (m.rcptTo.filter (· ∉ m.rcptTo.filter _)),
        dedupeJoin toLowerCase (m.rcptTo.filter _)) = _
    rw [← hblind, ← hrest, hto]
    by_cases h : t = []
    · rw [if_neg (not_not.mpr (ht0.mpr h)), if_neg (not_not.mpr h)]
      rfl
    · rw [if_pos (ht0.not.mpr h), if_pos h]
      rfl
  · intro a ha
    rw [List.mem_append, List.mem_append] at ha
    rcases ha with (ha | ha) | ha
    · exact (hmemTo a ha).1
    · exact hemail a (List.mem_append_right t ha)
    · exact hrcptBlind a ha
  · intro k
    rw [List.map_append, List.mem_append, hlowerBlind, List.map_append, List.mem_append]
    constructor
    · rintro ((hk | hk) | ⟨hk, _⟩)
      · obtain ⟨a, ha, rfl⟩ := List.mem_map.mp hk
        exact ((hshown _).mp (hmemTo a ha).2).2
      · refine ((hshown k).mp ?_).2
        rw [List.map_append]
        exact List.mem_append_right _ hk
      · exact hk
    · intro hk
      by_cases hv : k ∈ (t ++ c).map toLowerCase
      · left
        rw [List.map_append, List.mem_append] at hv
        refine hv.imp_left fun hkt => ?_
        have hsome : t ≠ [] := by
          rintro rfl
          cases hkt
        rw [hto, if_pos hsome]
        exact hkt
      · exact .inr ⟨hk, hv⟩
  · intro a ha _
    rcases List.mem_append.mp ha with ha | ha
    · exact ((hshown _).mp (hmemTo a ha).2).1
    · exact ((hshown _).mp (List.mem_map_of_mem (List.mem_append_right t ha))).1

omit hlow in
/-- When no header names anybody, every envelope recipient is in `To`. -/
theorem lists_of_unnamed (hnone : m.headers toLowerCase = []) :
    ∃ to_ bcc : List Text, toAndBcc toLowerCase m.parts [] [] = (join ", " to_, join ", " bcc) ∧
      (to_ ≠ [] → Lists toLowerCase m to_ [] bcc) := by
  refine ⟨dedupe toLowerCase m.rcptTo, [], ?_, fun hne => ⟨hne, ?_, ?_, ?_⟩⟩
  · unfold toAndBcc
    rw [if_neg (by simp)]
    rfl
  · intro a ha
    rw [List.append_nil, List.append_nil] at ha
    obtain ⟨_, raw, hraw, rfl⟩ := mem_dedupe ha
    rw [trim_of_admitted (hrcpt raw hraw)]
    exact isEmailAddress_rcpt hrcpt hshape hraw
  · intro k
    rw [List.append_nil, List.append_nil, mem_lower_rcpt hrcpt fun _ h => h]
    rfl
  · intro a _ hnamed
    exact absurd hnone hnamed

/-- **The send of a message** whose envelope recipients are addresses. -/
theorem lists_of_built {input : SendEmailInput κ}
    (h : buildSubmissionInput toLowerCase m.parts = .ok input) :
    ∃ to_ cc bcc : List Text, input.to_ = join ", " to_ ∧ input.cc = nonEmpty? (join ", " cc) ∧
      input.bcc = nonEmpty? (join ", " bcc) ∧ Lists toLowerCase m to_ cc bcc := by
  obtain ⟨t, ht⟩ : ∃ t, t = dedupe toLowerCase
    ((extractAddresses m.to_).filter (inEnvelope toLowerCase m.parts)) := ⟨_, rfl⟩
  obtain ⟨c, hc⟩ : ∃ c, c = dedupe toLowerCase
    ((extractAddresses m.cc).filter (inEnvelope toLowerCase m.parts)) := ⟨_, rfl⟩
  have hnil : ∀ {field : List (Option Text)} {l : List Text},
      l = dedupe toLowerCase ((extractAddresses field).filter (inEnvelope toLowerCase m.parts)) →
        (join ", " l = [] ↔ l = []) := fun hl => join_eq_nil_iff fun a ha => (mem_dedupe (hl ▸ ha)).1
  have ht0 := hnil ht
  have hc0 := hnil hc
  unfold buildSubmissionInput at h
  dsimp only [dedupeJoin] at h
  split at h
  · cases h
  rename_i from_ _
  rw [show m.parts.toHeader = extractAddresses m.to_ from rfl,
    show m.parts.ccHeader = extractAddresses m.cc from rfl, ← ht, ← hc] at h
  split_ifs at h with hrefused hempty
  have hinput := Except.ok.inj h
  -- the lists behind `to` and `bcc`
  obtain ⟨to_, bcc, hfields, hlists⟩ : ∃ to_ bcc : List Text,
      toAndBcc toLowerCase m.parts (join ", " t) (join ", " c) = (join ", " to_, join ", " bcc) ∧
        (to_ ≠ [] → Lists toLowerCase m to_ c bcc) := by
    by_cases hne : t ++ c = []
    · obtain ⟨rfl, rfl⟩ := List.append_eq_nil_iff.mp hne
      refine lists_of_unnamed hrcpt hshape ?_
      unfold SubmittedMessage.headers
      rw [List.map_eq_nil_iff, List.eq_nil_iff_forall_not_mem]
      intro a ha
      refine hrefused ⟨List.any_eq_true.mpr ⟨a, ha, decide_eq_true ?_⟩, ht0.mpr rfl, hc0.mpr rfl⟩
      rcases List.mem_append.mp ha with ha | ha
      · exact (trim_of_mem_extractAddresses ha).symm ▸ (mem_extractAddresses ha).1
      · exact (trim_of_mem_extractAddresses ha).symm ▸ (mem_extractAddresses ha).1
    · exact lists_of_visible hlow hrcpt hshape ht hc hne
  rw [hfields] at hinput hempty
  refine ⟨to_, c, bcc, ?_, ?_, ?_, hlists ?_⟩
  · rw [← hinput]
  · rw [← hinput]
  · rw [← hinput]
  · rintro rfl
    exact hempty rfl

omit hlow hrcpt hshape in
theorem piecesOf_nonEmpty {l : List Text} (h : ∀ a ∈ l, EMAIL_RE a = true) :
    piecesOf (nonEmpty? (join ", " l)) = l := by
  unfold nonEmpty?
  have hnil := join_eq_nil_iff fun a ha => ne_nil_of_EMAIL_RE (h a ha)
  by_cases hl : l = []
  · rw [if_pos (hnil.mpr hl), hl]
    rfl
  · rw [if_neg (hnil.not.mpr hl), piecesOf_join h hl]

omit hlow hrcpt hshape in
theorem addressesOf_of_all {l : List Text} (h : ∀ a ∈ l, isEmailAddress a = true) :
    addressesOf toLowerCase l = l.map toLowerCase := by
  unfold addressesOf
  rw [List.filter_eq_self.mpr h]

/-- **Delivery equals the envelope** when every envelope recipient has the shape of an address. -/
theorem deliversEnvelope (h : submit toLowerCase refuses m = some row) :
    DeliversEnvelope toLowerCase m row := by
  unfold submit at h
  obtain ⟨input, hbuilt, hprepared⟩ := Option.bind_eq_some_iff.mp h
  have hok : buildSubmissionInput toLowerCase m.parts = .ok input := by
    cases hb : buildSubmissionInput toLowerCase m.parts with
    | error text =>
      rw [hb] at hbuilt
      cases hbuilt
    | ok sent =>
      rw [hb] at hbuilt
      exact congrArg Except.ok (Option.some.inj hbuilt)
  obtain ⟨to_, cc, bcc, hto, hcc, hbcc, hlists⟩ := lists_of_built hlow hrcpt hshape hok
  have hre : ∀ a ∈ to_ ++ cc ++ bcc, EMAIL_RE a = true := fun a ha =>
    (Bool.and_eq_true_iff.mp (hlists.addresses a ha)).2
  have hreTo : ∀ a ∈ to_, EMAIL_RE a = true := fun a ha =>
    hre a (List.mem_append_left _ (List.mem_append_left _ ha))
  have hreCc : ∀ a ∈ cc, EMAIL_RE a = true := fun a ha =>
    hre a (List.mem_append_left _ (List.mem_append_right _ ha))
  have hreBcc : ∀ a ∈ bcc, EMAIL_RE a = true := fun a ha => hre a (List.mem_append_right _ ha)
  -- the stored `to` lists the same addresses without duplicates
  obtain ⟨stored, hstored⟩ : ∃ stored, stored = normalizeToList toLowerCase (join ", " to_) := ⟨_, rfl⟩
  have hpieces : stored = dedupe toLowerCase to_ := by
    have htrim : ∀ l : List Text, dedupe toLowerCase l = dedupe toLowerCase (l.map trim) := by
      intro l
      unfold dedupe
      rw [List.foldl_map]
      unfold addOnce
      simp only [trim_trim]
    rw [hstored]
    unfold normalizeToList
    rw [htrim, map_trim_splitOn_join hlists.ne_nil fun a ha =>
      ⟨comma_notMem_of_EMAIL_RE (hreTo a ha), trim_of_EMAIL_RE (hreTo a ha)⟩]
  have hmemStored : ∀ a ∈ stored, a ∈ to_ := by
    intro a ha
    obtain ⟨_, raw, hraw, rfl⟩ := mem_dedupe (hpieces ▸ ha)
    rwa [trim_of_EMAIL_RE (hreTo raw hraw)]
  have hlowerStored : ∀ k, k ∈ stored.map toLowerCase ↔ k ∈ to_.map toLowerCase := by
    intro k
    rw [hpieces, mem_lower_dedupe, List.mem_map]
    refine ⟨?_, ?_⟩
    · rintro ⟨a, ha, _, rfl⟩
      exact ⟨a, ha, by rw [trim_of_EMAIL_RE (hreTo a ha)]⟩
    · rintro ⟨a, ha, rfl⟩
      have htrim := trim_of_EMAIL_RE (hreTo a ha)
      exact ⟨a, ha, by rw [htrim]; exact ne_nil_of_EMAIL_RE (hreTo a ha), by rw [htrim]⟩
  have hneStored : stored ≠ [] := by
    obtain ⟨a, ha⟩ := List.exists_mem_of_ne_nil _ hlists.ne_nil
    have hk := (hlowerStored (toLowerCase a)).mpr (List.mem_map_of_mem ha)
    rintro hnil
    rw [hnil] at hk
    cases hk
  have hrow : row = ⟨join ", " stored, nonEmpty? (join ", " cc), nonEmpty? (join ", " bcc)⟩ := by
    unfold prepareEmail at hprepared
    dsimp only at hprepared
    split_ifs at hprepared
    rw [← Option.some.inj hprepared, hcc, hbcc, hto, ← hstored]
    rfl
  have hpiecesTo : piecesOf (some (join ", " stored)) = stored :=
    piecesOf_join (fun a ha => hreTo a (hmemStored a ha)) hneStored
  subst hrow
  have hshown : (⟨join ", " stored, nonEmpty? (join ", " cc), nonEmpty? (join ", " bcc)⟩ :
      PreparedAddresses).shown = stored ++ cc := by
    unfold PreparedAddresses.shown
    dsimp only
    rw [hpiecesTo, piecesOf_nonEmpty hreCc, List.filter_eq_self]
    intro a ha
    refine decide_eq_true ?_
    rcases List.mem_append.mp ha with ha | ha
    · exact ne_nil_of_EMAIL_RE (hreTo a (hmemStored a ha))
    · exact ne_nil_of_EMAIL_RE (hreCc a ha)
  have hmemShown : ∀ a ∈ stored ++ cc, a ∈ to_ ++ cc := by
    intro a ha
    rcases List.mem_append.mp ha with ha | ha
    · exact List.mem_append_left _ (hmemStored a ha)
    · exact List.mem_append_right _ ha
  refine ⟨fun k => ?_, fun a ha => ?_, ?_⟩
  · rw [mem_recipientOrder]
    dsimp only
    rw [hpiecesTo, piecesOf_nonEmpty hreCc, piecesOf_nonEmpty hreBcc,
      addressesOf_of_all fun a ha => hlists.addresses a
        (List.mem_append_left _ (List.mem_append_left _ (hmemStored a ha))),
      addressesOf_of_all fun a ha => hlists.addresses a
        (List.mem_append_left _ (List.mem_append_right _ ha)),
      addressesOf_of_all fun a ha => hlists.addresses a (List.mem_append_right _ ha),
      hlowerStored, ← hlists.all k, List.map_append, List.map_append, List.mem_append,
      List.mem_append, or_assoc]
  · rw [hshown] at ha
    have hin := hmemShown a ha
    refine ⟨?_, fun hnamed => hlists.shown a hin hnamed⟩
    rw [← hlists.all]
    exact List.mem_map_of_mem (List.mem_append_left _ hin)
  · rintro ⟨named, hnamed, _⟩ k _ hblind hk
    rw [hshown] at hk
    obtain ⟨a, ha, rfl⟩ := List.mem_map.mp hk
    exact hblind (hlists.shown a (hmemShown a ha) (List.ne_nil_of_mem hnamed))

end Addresses

/-- **Delivery equals the envelope exactly for envelopes of addresses.** -/
theorem deliversEnvelope_iff (hlow : IsLowerCase toLowerCase) (hrcpt : ∀ a ∈ m.rcptTo, Admitted a)
    (h : submit toLowerCase refuses m = some row) :
    DeliversEnvelope toLowerCase m row ↔ ∀ a ∈ m.rcptTo, EMAIL_RE a = true := by
  refine ⟨fun hdelivers a ha => ?_, fun hshape => deliversEnvelope hlow hrcpt hshape h⟩
  have hk : toLowerCase a ∈ m.envelope toLowerCase := List.mem_map_of_mem ha
  rw [← hdelivers.recipients, mem_recipientOrder] at hk
  -- whatever is read back has the shape of an address
  have hread : ∀ {pieces : List Text}, toLowerCase a ∈ addressesOf toLowerCase pieces →
      EMAIL_RE a = true := by
    intro pieces hmem
    obtain ⟨piece, _, hemail, heq⟩ := mem_addressesOf.mp hmem
    rw [← EMAIL_RE_of_lower_eq hlow heq]
    exact (Bool.and_eq_true_iff.mp hemail).2
  rcases hk with hk | hk | hk
  · exact hread hk
  · exact hread hk
  · exact hread hk

end Envelope

/-! ## Recipients that are no addresses -/

/-- A message to the given header recipients, for the given envelope. -/
def messageTo (to_ rcptTo : List Text) : SubmittedMessage Unit where
  fromHeader := some "me@x.org"
  envelopeFrom := none
  to_ := to_.map some
  cc := []
  replyTo := []
  rcptTo := rcptTo
  subject := none
  content := ()

theorem noSpace_of_any {a : Text} (h : a.any isSpace = false) : ∀ c ∈ a, isSpace c = false :=
  fun c hc => Bool.eq_false_of_not_eq_true (List.any_eq_false.mp h c hc)

/-- A header address outside the envelope is not shown, and an envelope address outside the headers is
blind. -/
theorem deliversEnvelope_iff_blind :
    DeliversEnvelope asciiLower (messageTo ["A@x.org", "z@x.org"] ["a@x.org", "b@y.org"])
      ⟨"A@x.org", none, some "b@y.org"⟩ :=
  (@deliversEnvelope_iff Unit asciiLower _ _ (fun _ => false) isLowerCase_asciiLower
    (fun a ha => by
      have hmem : a = "a@x.org".toList ∨ a = "b@y.org".toList := by simpa [messageTo] using ha
      rcases hmem with rfl | rfl
      · exact ⟨by decide, noSpace_of_any (by decide), by decide⟩
      · exact ⟨by decide, noSpace_of_any (by decide), by decide⟩)
    (by decide +kernel)).mpr (by decide +kernel)

/-- `boss,ceo@x.org` has one `@` and no white space; the mail goes to `ceo@x.org`. -/
theorem not_deliversEnvelope_comma :
    Admitted "boss,ceo@x.org" ∧
      ∃ row, submit asciiLower (fun _ => false) (messageTo [] ["boss,ceo@x.org"]) = some row ∧
        recipientOrder asciiLower row.toAddress row.cc row.bcc = ["ceo@x.org".toList] ∧
        ¬DeliversEnvelope asciiLower (messageTo [] ["boss,ceo@x.org"]) row := by
  refine ⟨⟨by decide, noSpace_of_any (by decide), by decide⟩, ⟨"boss, ceo@x.org", none, none⟩, ?_, ?_, ?_⟩
  · decide +kernel
  · decide +kernel
  · intro h
    have hk := (h.recipients "ceo@x.org").mp (by decide +kernel)
    revert hk
    decide +kernel

end BunMail.SmtpSubmission
