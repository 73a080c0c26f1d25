import BunMail.Utils.DnsAnswers
import BunMail.Utils.DnsQuery
import Mathlib.Data.Nat.Bitwise

/-!
# What a response answers

`parseTxtResponse` ends on every message, reads inside it, and gives records exactly for a well-formed
response to its question: the strings of the TXT records at the names that the CNAME records lead to.
Truncated responses, and names behind more than 32 pointers, are left out.
-/

namespace BunMail.DnsWire

open Text Dns

/-- The RDATA of the answers says what their types have it say. -/
structure WellFormed (m : Bytes) (limit : ℕ) (answers : List Record) : Prop where
  txt : ∀ r ∈ answers, r.type = TYPE_TXT → ∃ strings, TxtData m r strings
  linked : Linked m limit answers

/-- A well-formed response to a question. -/
structure Response (m : Bytes) (limit : ℕ) (question : TxtQuestion) (msg : Message) : Prop where
  id : u16 m 0 = some question.id
  flags : u16 m 2 = some msg.flags
  isResponse : msg.flags.testBit 15 = true
  opcode : msg.flags / 2048 % 16 = 0
  questionCount : u16 m 4 = some 1
  sections : ∃ start, Asks m limit question.labels start ∧ Sections m limit start msg
  wellFormed : WellFormed m limit msg.answers

/-- The chain of names is not too long, and the records answer: their strings, one by one. -/
structure Answering (m : Bytes) (limit : ℕ) (asked : List Text) (msg : Message)
    (records : List (List Text)) : Prop where
  rcode : msg.rcode = 0
  chain : ChainWithin m limit MAX_CNAME_LINKS msg.answers asked
  nonempty : records ≠ []
  strings : ∃ wanted : Record → Bool,
    (∀ r, wanted r = true ↔ r.type = TYPE_TXT ∧ r.rrClass = CLASS_IN ∧
      ∃ n ≤ MAX_CNAME_LINKS, Reach m limit msg.answers asked n r.owner) ∧
    List.Forall₂ (TxtData m) (msg.answers.filter wanted) records

variable {m : Bytes} {question : TxtQuestion}

/-! ## Flags -/

theorem and_two_pow_eq_zero (flags bit : ℕ) : flags &&& 2 ^ bit = 0 ↔ flags.testBit bit = false := by
  rw [Nat.and_two_pow]
  cases flags.testBit bit <;> simp

theorem opcode_eq (flags : ℕ) : (flags >>> 11) &&& 0x0f = flags / 2048 % 16 := by
  rw [Nat.shiftRight_eq_div_pow]
  exact Nat.and_two_pow_sub_one_eq_mod _ 4

theorem rcode_eq (flags : ℕ) : flags &&& 0x0f = flags % 16 := Nat.and_two_pow_sub_one_eq_mod _ 4

theorem length_of_u16 {i n : ℕ} (h : u16 m i = some n) : i + 2 ≤ m.length := by
  unfold u16 at h
  cases hhi : m[i]? with
  | none =>
    rw [hhi] at h
    cases h
  | some hi =>
    cases hlo : m[i + 1]? with
    | none =>
      rw [hhi, hlo] at h
      cases h
    | some lo => exact lt_length_of_getElem? hlo

/-! ## Sections -/

theorem ok_bind {α β : Type} (a : α) (f : α → Except Fault β) : (Except.ok a >>= f) = f a := rfl

section Sections

variable (hlen : 12 ≤ m.length)

include hlen

/-- The counts of the header are read. -/
theorem readSections_eq {start headerRcode : ℕ} : ∃ answerCount authorityCount additionalCount,
    u16 m 6 = some answerCount ∧ u16 m 8 = some authorityCount ∧ u16 m 10 = some additionalCount ∧
    readSections m start headerRcode question = (do
      let s ← readRecords m answerCount authorityCount
        (answerCount + authorityCount + additionalCount) 0 start
        { answers := [], optRecords := 0, rcode := headerRcode }
      if s.rcode ≠ 0 then .ok (.error (rcodeError s.rcode))
      else do
        let owners ← chainOwners m s.answers question.labels
        let records ← collect m owners s.answers
        .ok (if records = [] then .error .ENODATA else .records records)) := by
  obtain ⟨answerCount, hanswer⟩ := exists_u16 (m := m) (i := 6) (by omega)
  obtain ⟨authorityCount, hauthority⟩ := exists_u16 (m := m) (i := 8) (by omega)
  obtain ⟨additionalCount, hadditional⟩ := exists_u16 (m := m) (i := 10) (by omega)
  refine ⟨answerCount, authorityCount, additionalCount, hanswer, hauthority, hadditional, ?_⟩
  unfold readSections
  rw [getUint16_eq_ok.mpr hanswer, getUint16_eq_ok.mpr hauthority, getUint16_eq_ok.mpr hadditional,
    ok_bind, ok_bind, ok_bind]

/-- **`readSections` gives the answer of a response without error.** -/
theorem readSections_eq_records {start flags : ℕ} {records : List (List Text)} :
    readSections m start (flags % 16) question = .ok (.records records) ↔
      ∃ msg : Message, msg.flags = flags ∧ Sections m MAX_POINTER_JUMPS start msg ∧
        WellFormed m MAX_POINTER_JUMPS msg.answers ∧
        Answering m MAX_POINTER_JUMPS question.labels msg records := by
  obtain ⟨answerCount, authorityCount, additionalCount, hanswer, hauthority, hadditional, heq⟩ :=
    @readSections_eq _ question hlen start (flags % 16)
  rw [heq]
  constructor
  · intro h
    obtain ⟨s, hs, h⟩ := bind_eq_ok.mp h
    obtain ⟨msg, hflags, hsections, rfl⟩ :=
      (readRecords_message hanswer hauthority hadditional).mp hs
    obtain ⟨stop, hrecords⟩ := hsections.records
    have hinside : Inside m msg.answers := fun r hr =>
      inside_of_recordsAt hrecords r (List.mem_append_left _ hr)
    by_cases hrcode : msg.rcode = 0
    · rw [if_neg (not_not.mpr hrcode)] at h
      obtain ⟨owners, howners, h⟩ := bind_eq_ok.mp h
      obtain ⟨found, hfound, h⟩ := bind_eq_ok.mp h
      obtain ⟨hall, hfor⟩ := (collect_eq_ok hinside).mp hfound
      obtain ⟨hl, hchain, hmem⟩ := chainOwners_eq_ok howners
      have hfound := Except.ok.inj h
      split_ifs at hfound with hnil
      obtain rfl := TxtResponseOutcome.records.inj hfound
      refine ⟨msg, hflags, hsections, ⟨hall, hl⟩, hrcode, hchain, hnil, kept owners, fun r => ?_, hfor⟩
      rw [kept_iff, hmem]
    · rw [if_pos hrcode] at h
      cases h
  · rintro ⟨msg, hflags, hsections, hwell, hanswers⟩
    obtain ⟨stop, hrecords⟩ := hsections.records
    have hinside : Inside m msg.answers := fun r hr =>
      inside_of_recordsAt hrecords r (List.mem_append_left _ hr)
    refine bind_eq_ok.mpr ⟨_, (readRecords_message hanswer hauthority hadditional).mpr
      ⟨msg, hflags, hsections, rfl⟩, ?_⟩
    obtain ⟨owners, howners⟩ := exists_chainOwners hwell.linked hanswers.chain
    obtain ⟨_, _, hmem⟩ := chainOwners_eq_ok howners
    obtain ⟨wanted, hwanted, hfor⟩ := hanswers.strings
    have hkept : kept owners = wanted := by
      funext r
      rw [Bool.eq_iff_iff, kept_iff, hmem, hwanted]
    dsimp only
    rw [if_neg (not_not.mpr hanswers.rcode)]
    refine bind_eq_ok.mpr ⟨owners, howners, bind_eq_ok.mpr ⟨records, ?_, ?_⟩⟩
    · refine (collect_eq_ok hinside).mpr ⟨hwell.txt, ?_⟩
      rwa [hkept]
    · rw [if_neg hanswers.nonempty]

theorem tame_readSections (start flags : ℕ) : Tame (readSections m start (flags % 16) question) := by
  obtain ⟨answerCount, authorityCount, additionalCount, hanswer, hauthority, hadditional, heq⟩ :=
    @readSections_eq _ question hlen start (flags % 16)
  rw [heq]
  refine (tame_readRecords _ _ _ _).bind fun s hs => ?_
  obtain ⟨msg, _, hsections, rfl⟩ := (readRecords_message hanswer hauthority hadditional).mp hs
  obtain ⟨stop, hrecords⟩ := hsections.records
  have hinside : Inside m msg.answers := fun r hr =>
    inside_of_recordsAt hrecords r (List.mem_append_left _ hr)
  by_cases hrcode : msg.rcode = 0
  · rw [if_neg (not_not.mpr hrcode)]
    exact (tame_chainOwners _ _).bind fun _ _ => (tame_collect hinside).bind fun _ _ => tame_ok _
  · rw [if_pos hrcode]
    exact tame_ok _

end Sections

/-! ## The question -/

theorem readQuestion_eq_some {next : ℕ} :
    readQuestion m question = .ok (some next) ↔ Asks m MAX_POINTER_JUMPS question.labels next := by
  unfold readQuestion Asks
  rw [bind_eq_ok]
  constructor
  · rintro ⟨⟨labels, stop⟩, hname, h⟩
    dsimp only at h
    by_cases hshort : m.length < stop + 4
    · rw [if_pos hshort] at h
      cases h
    · rw [if_neg hshort] at h
      obtain ⟨type, htype, h⟩ := bind_eq_ok.mp h
      obtain ⟨qclass, hclass, h⟩ := bind_eq_ok.mp h
      by_cases hother : labels ≠ question.labels ∨ type ≠ TYPE_TXT ∨ qclass ≠ CLASS_IN
      · rw [if_pos hother] at h
        cases h
      · rw [if_neg hother] at h
        rw [not_or, not_or, not_not, not_not, not_not] at hother
        have hnext := Except.ok.inj h
        obtain ⟨rfl, rfl, rfl⟩ := hother
        exact ⟨stop, readName_eq_ok.mp hname, getUint16_eq_ok.mp htype, getUint16_eq_ok.mp hclass,
          (Option.some.inj hnext).symm⟩
  · rintro ⟨stop, hname, htype, hclass, rfl⟩
    have hfits := length_of_u16 hclass
    refine ⟨(question.labels, stop), readName_eq_ok.mpr hname, ?_⟩
    dsimp only
    rw [if_neg (by omega)]
    refine bind_eq_ok.mpr ⟨TYPE_TXT, getUint16_eq_ok.mpr htype, ?_⟩
    refine bind_eq_ok.mpr ⟨CLASS_IN, getUint16_eq_ok.mpr hclass, ?_⟩
    rw [if_neg]
    rw [not_or, not_or, not_not, not_not, not_not]
    exact ⟨rfl, rfl, rfl⟩

theorem tame_readQuestion : Tame (readQuestion m question) := by
  unfold readQuestion
  refine (tame_readName _).bind fun ⟨labels, stop⟩ _ => ?_
  dsimp only
  by_cases hshort : m.length < stop + 4
  · rw [if_pos hshort]
    exact tame_ok _
  · rw [if_neg hshort]
    refine (tame_getUint16 (by omega)).bind fun type _ => (tame_getUint16 (by omega)).bind fun qclass _ => ?_
    split_ifs
    · exact tame_ok _
    · exact tame_ok _

/-! ## The response -/

/-- What the parse of a message gives, for a question. -/
structure Exact (m : Bytes) (question : TxtQuestion) : Prop where
  total : ∃ outcome, parseTxtResponse m question = .ok outcome
  records : ∀ records, parseTxtResponse m question = .ok (.records records) ↔
    ∃ msg : Message, Response m MAX_POINTER_JUMPS question msg ∧ msg.flags.testBit 9 = false ∧
      Answering m MAX_POINTER_JUMPS question.labels msg records

theorem response_length {limit : ℕ} {msg : Message} (h : Response m limit question msg) :
    12 ≤ m.length := by
  obtain ⟨_, _, hsections⟩ := h.sections
  exact length_of_u16 hsections.additionalCount

theorem readAnswer_eq_records {flags start : ℕ} {records : List (List Text)} (hlen : 12 ≤ m.length) :
    readAnswer m flags start question = .ok (.records records) ↔ flags.testBit 9 = false ∧
      readSections m start (flags % 16) question = .ok (.records records) := by
  unfold readAnswer
  have htc : flags &&& 0x0200 = 0 ↔ flags.testBit 9 = false := and_two_pow_eq_zero flags 9
  rw [← htc]
  by_cases hbit : flags &&& 0x0200 = 0
  · rw [if_neg (not_not.mpr hbit), rcode_eq]
    have htame := @tame_readSections _ question hlen start flags
    cases hread : readSections m start (flags % 16) question with
    | error fault =>
      obtain rfl := htame fault hread
      exact ⟨fun h => (by cases h), fun h => (by cases h.2)⟩
    | ok outcome => exact ⟨fun h => ⟨hbit, h⟩, And.right⟩
  · rw [if_pos hbit]
    exact ⟨fun h => (by cases h), fun h => absurd h.1 hbit⟩

theorem exists_readAnswer (hlen : 12 ≤ m.length) (flags start : ℕ) :
    ∃ outcome, readAnswer m flags start question = .ok outcome := by
  unfold readAnswer
  split_ifs
  · exact ⟨_, rfl⟩
  · rw [rcode_eq]
    have htame := @tame_readSections _ question hlen start flags
    cases hread : readSections m start (flags % 16) question with
    | error fault =>
      obtain rfl := htame fault hread
      exact ⟨_, rfl⟩
    | ok outcome => exact ⟨outcome, rfl⟩

theorem readResponse_eq_records {flags : ℕ} {records : List (List Text)} (hlen : 12 ≤ m.length) :
    readResponse m flags question = .ok (.records records) ↔
      flags.testBit 9 = false ∧ ∃ start, Asks m MAX_POINTER_JUMPS question.labels start ∧
        readSections m start (flags % 16) question = .ok (.records records) := by
  unfold readResponse
  simp only [← readQuestion_eq_some]
  cases hread : readQuestion m question with
  | error fault =>
    obtain rfl := tame_readQuestion fault hread
    exact ⟨fun h => (by cases h), fun ⟨_, _, h, _⟩ => (by cases h)⟩
  | ok found =>
    cases found with
    | none => exact ⟨fun h => (by cases h), fun ⟨_, _, h, _⟩ => (by cases h)⟩
    | some start =>
      refine (readAnswer_eq_records hlen).trans (and_congr_right fun _ => ?_)
      constructor
      · exact fun h => ⟨start, rfl, h⟩
      · rintro ⟨_, hstart, h⟩
        obtain rfl := Option.some.inj (Except.ok.inj hstart)
        exact h

theorem exists_readResponse (hlen : 12 ≤ m.length) (flags : ℕ) :
    ∃ outcome, readResponse m flags question = .ok outcome := by
  unfold readResponse
  cases hread : readQuestion m question with
  | error fault =>
    obtain rfl := tame_readQuestion fault hread
    exact ⟨_, rfl⟩
  | ok found =>
    cases found with
    | none => exact ⟨_, rfl⟩
    | some start => exact exists_readAnswer hlen flags start

/-- **The header.** The three ways out before the question is read, and the response read on. -/
theorem parse_cases (hlen : 12 ≤ m.length) : ∃ flags id count, u16 m 2 = some flags ∧
    u16 m 0 = some id ∧ u16 m 4 = some count ∧
    ((id = question.id ∧ flags.testBit 15 = true ∧ flags / 2048 % 16 = 0 ∧ count = 1 ∧
        parseTxtResponse m question = readResponse m flags question) ∨
      (¬ (id = question.id ∧ flags.testBit 15 = true ∧ flags / 2048 % 16 = 0 ∧ count = 1) ∧
        ∃ outcome, parseTxtResponse m question = .ok outcome ∧
          ∀ records, outcome ≠ .records records)) := by
  obtain ⟨flags, hflags⟩ := exists_u16 (m := m) (i := 2) (by omega)
  obtain ⟨id, hid⟩ := exists_u16 (m := m) (i := 0) (by omega)
  obtain ⟨count, hcount⟩ := exists_u16 (m := m) (i := 4) (by omega)
  refine ⟨flags, id, count, hflags, hid, hcount, ?_⟩
  have hbit : flags &&& 0x8000 = 0 ↔ flags.testBit 15 = false := and_two_pow_eq_zero flags 15
  have hfits : ¬ m.length < DNS_HEADER_BYTES := not_lt.mpr hlen
  unfold parseTxtResponse
  rw [if_neg hfits, getUint16_eq_ok.mpr hflags, getUint16_eq_ok.mpr hid, ok_bind, ok_bind]
  by_cases hheader : id ≠ question.id ∨ flags &&& 0x8000 = 0 ∨ (flags >>> 11) &&& 0x0f ≠ 0
  · rw [if_pos hheader]
    rw [opcode_eq, hbit] at hheader
    refine .inr ⟨fun h => ?_, .mismatch, rfl, fun _ h => by cases h⟩
    rcases hheader with hne | hbit | hne
    · exact hne h.1
    · rw [h.2.1] at hbit
      cases hbit
    · exact hne h.2.2.1
  · rw [if_neg hheader, getUint16_eq_ok.mpr hcount, ok_bind]
    rw [opcode_eq, hbit, not_or, not_or, not_not, not_not, Bool.not_eq_false] at hheader
    split_ifs with hquestionless hnotOne
    · refine .inr ⟨fun h => ?_, _, rfl, fun _ h => by cases h⟩
      rw [hquestionless.1] at h
      exact absurd h.2.2.2 zero_ne_one
    · exact .inr ⟨fun h => hnotOne h.2.2.2, _, rfl, fun _ h => by cases h⟩
    · exact .inl ⟨hheader.1, hheader.2.1, hheader.2.2, not_not.mp hnotOne, rfl⟩

/-- **The parse is total and exact.** -/
theorem exact_parse (m : Bytes) (question : TxtQuestion) : Exact m question := by
  by_cases hlen : 12 ≤ m.length
  · obtain ⟨flags, id, count, hflags, hid, hcount, hparse⟩ := @parse_cases _ question hlen
    rcases hparse with ⟨rfl, hresponse, hopcode, rfl, hparse⟩ | ⟨hother, outcome, hparse, hno⟩
    · refine ⟨?_, fun records => ?_⟩
      · rw [hparse]
        exact exists_readResponse hlen flags
      · rw [hparse, readResponse_eq_records hlen]
        constructor
        · rintro ⟨htc, start, hasks, hread⟩
          obtain ⟨msg, rfl, hsections, hwell, hanswers⟩ := (readSections_eq_records hlen).mp hread
          exact ⟨msg, ⟨hid, hflags, hresponse, hopcode, hcount, ⟨start, hasks, hsections⟩, hwell⟩, htc,
            hanswers⟩
        · rintro ⟨msg, hresp, htc, hanswers⟩
          obtain rfl := Option.some.inj (hflags.symm.trans hresp.flags)
          obtain ⟨start, hasks, hsections⟩ := hresp.sections
          exact ⟨htc, start, hasks, (readSections_eq_records hlen).mpr
            ⟨msg, rfl, hsections, hresp.wellFormed, hanswers⟩⟩
    · refine ⟨⟨outcome, hparse⟩, fun records => ⟨fun h => ?_, ?_⟩⟩
      · rw [hparse] at h
        exact absurd (Except.ok.inj h) (hno records)
      · rintro ⟨msg, hresp, _⟩
        obtain rfl := Option.some.inj (hflags.symm.trans hresp.flags)
        obtain rfl := Option.some.inj (hid.symm.trans hresp.id)
        obtain rfl := Option.some.inj (hcount.symm.trans hresp.questionCount)
        exact absurd ⟨rfl, hresp.isResponse, hresp.opcode, rfl⟩ hother
  · have hparse : parseTxtResponse m question = .ok .mismatch := if_pos (not_le.mp hlen)
    refine ⟨⟨_, hparse⟩, fun records => ⟨fun h => ?_, ?_⟩⟩
    · rw [hparse] at h
      cases h
    · rintro ⟨msg, hresp, _⟩
      exact absurd (response_length hresp) hlen

/-- Where the owner of a record of the tower points: at the question, or at the owner before it. -/
def towerTarget (k : ℕ) : ℕ := if k = 0 then 12 else 17 + 14 * (k - 1)

/-- The `k`th record of the tower. -/
def towerRecord (k : ℕ) : Bytes :=
  bytes16 (49152 + towerTarget k) ++ bytes16 TYPE_TXT ++ bytes16 CLASS_IN ++ [0, 0, 0, 0] ++ bytes16 2 ++
    [1, 97]

/-- A response for the root, whose TXT records' owners are pointers to one another. -/
def tower (flags n : ℕ) : Bytes :=
  bytes16 0 ++ bytes16 flags ++ bytes16 1 ++ bytes16 n ++ bytes16 0 ++ bytes16 0 ++
    [0] ++ bytes16 TYPE_TXT ++ bytes16 CLASS_IN ++ (List.range n).flatMap towerRecord

/-- The records of the tower. -/
def towerRow (k : ℕ) : Record where
  owner := []
  type := TYPE_TXT
  rrClass := CLASS_IN
  ttl := 0
  rdataStart := 29 + 14 * k
  rdataEnd := 31 + 14 * k

/-- The bytes of a record of the tower. -/
structure Floor (m : Bytes) (k : ℕ) : Prop where
  high : m[17 + 14 * k]? = some (UInt8.ofNat (192 + towerTarget k / 256))
  low : m[18 + 14 * k]? = some (UInt8.ofNat (towerTarget k))
  type : u16 m (19 + 14 * k) = some TYPE_TXT
  rrClass : u16 m (21 + 14 * k) = some CLASS_IN
  ttl : u32 m (23 + 14 * k) = some 0
  rdlength : u16 m (27 + 14 * k) = some 2
  length : m[29 + 14 * k]? = some 1
  string : text m (30 + 14 * k) (31 + 14 * k) = ['a']
  fits : 31 + 14 * k ≤ m.length

/-- The bytes of a tower. -/
structure Floors (m : Bytes) (flags n : ℕ) : Prop where
  id : u16 m 0 = some 0
  flags : u16 m 2 = some flags
  questionCount : u16 m 4 = some 1
  answerCount : u16 m 6 = some n
  authorityCount : u16 m 8 = some 0
  additionalCount : u16 m 10 = some 0
  root : m[12]? = some 0
  type : u16 m 13 = some TYPE_TXT
  qclass : u16 m 15 = some CLASS_IN
  floor : ∀ k < n, Floor m k

section Tower

variable {flags n : ℕ} (h : Floors m flags n) (hn : n ≤ 1000)

include h hn

/-- The owner of the `k`th record is read through `k + 1` pointers. -/
theorem nameAt_tower {k : ℕ} (hk : k < n) : NameAt m (k + 1) (17 + 14 * k) [] (19 + 14 * k) := by
  have hfloor := h.floor k hk
  have htarget : towerTarget k < 17 + 14 * k ∧ 12 ≤ towerTarget k := by
    unfold towerTarget
    split_ifs <;> omega
  have hsmall : towerTarget k / 256 < 64 := by
    rw [Nat.div_lt_iff_lt_mul (by decide)]
    omega
  have hhi : (UInt8.ofNat (192 + towerTarget k / 256)).toNat = 192 + towerTarget k / 256 :=
    UInt8.toNat_ofNat_of_lt' (by
      rw [UInt8.size]
      omega)
  have hlo : (UInt8.ofNat (towerTarget k)).toNat = towerTarget k % 256 := UInt8.toNat_ofNat
  have hplace : 256 * ((UInt8.ofNat (192 + towerTarget k / 256)).toNat - 192) +
      (UInt8.ofNat (towerTarget k)).toNat = towerTarget k := by
    rw [hhi, hlo, Nat.add_sub_cancel_left]
    exact Nat.div_add_mod _ _
  have hrest : ∃ stop, NameAt m k (towerTarget k) [] stop := by
    cases k with
    | zero => exact ⟨13, .root h.root⟩
    | succ k => exact ⟨_, nameAt_tower (Nat.lt_of_succ_lt hk)⟩
  obtain ⟨stop, hrest⟩ := hrest
  have hlow : m[17 + 14 * k + 1]? = _ := (congrArg (m[·]?) (by omega)).trans hfloor.low
  have hstep := NameAt.pointer hfloor.high (by rw [hhi]; omega) hlow (by rw [hplace]; exact htarget.1)
    (by rw [hplace]; exact htarget.2) (by rw [hplace]; exact hrest)
  rwa [show 17 + 14 * k + 2 = 19 + 14 * k by omega] at hstep

theorem recordAt_tower {k : ℕ} (hk : k < n) : RecordAt m n (17 + 14 * k) (towerRow k) := by
  have hfloor := h.floor k hk
  have hname : Name m n (17 + 14 * k) [] (19 + 14 * k) :=
    ⟨k + 1, hk, nameAt_tower h hn hk, by decide⟩
  refine ⟨19 + 14 * k, 2, hname, hfloor.type, ?_, ?_, ?_, ?_, ?_, hfloor.fits⟩
  · rw [show 19 + 14 * k + 2 = 21 + 14 * k by omega]
    exact hfloor.rrClass
  · rw [show 19 + 14 * k + 4 = 23 + 14 * k by omega]
    exact hfloor.ttl
  · rw [show 19 + 14 * k + 8 = 27 + 14 * k by omega]
    exact hfloor.rdlength
  · show 29 + 14 * k = 19 + 14 * k + 10
    omega
  · show 31 + 14 * k = 19 + 14 * k + 10 + 2
    omega

theorem recordsAt_tower {left k : ℕ} (hk : k + left = n) :
    RecordsAt m n (17 + 14 * k) ((List.range' k left).map towerRow) (17 + 14 * n) := by
  induction left generalizing k with
  | zero =>
    rw [← hk]
    exact .nil
  | succ left ih =>
    rw [List.range'_succ, List.map_cons]
    refine .cons (recordAt_tower h hn (by omega)) ?_
    have hnext : (towerRow k).rdataEnd = 17 + 14 * (k + 1) := by
      show 31 + 14 * k = 17 + 14 * (k + 1)
      omega
    rw [hnext]
    exact ih (by omega)

omit hn in
theorem txtData_tower {k : ℕ} (hk : k < n) : TxtData m (towerRow k) [['a']] := by
  have hfloor := h.floor k hk
  refine ⟨List.cons_ne_nil _ _, ?_⟩
  have hstop : 29 + 14 * k + 1 + (1 : UInt8).toNat = 31 + 14 * k := by
    show 29 + 14 * k + 1 + 1 = _
    omega
  have hstrings := @Strings.cons _ (31 + 14 * k) _ _ _ hfloor.length (by rw [hstop])
    (by rw [hstop]; exact .nil)
  rw [hstop, show 29 + 14 * k + 1 = 30 + 14 * k by omega, hfloor.string] at hstrings
  exact hstrings

omit h hn in
theorem not_link_tower {limit : ℕ} {owner target : List Text} :
    ¬ Link m limit ((List.range' 0 n).map towerRow) owner target := by
  rintro ⟨r, hr, hc, _⟩
  obtain ⟨k, _, rfl⟩ := List.mem_map.mp hr
  exact absurd hc.1 (by decide : ¬ TYPE_TXT = TYPE_CNAME)

/-- The message of the tower. -/
theorem response_tower (hresponse : flags.testBit 15 = true) (hopcode : flags / 2048 % 16 = 0) :
    Response m n { id := 0, labels := [] }
      { flags, answers := (List.range' 0 n).map towerRow, authority := [], additional := [] } where
  id := h.id
  flags := h.flags
  isResponse := hresponse
  opcode := hopcode
  questionCount := h.questionCount
  sections := by
    refine ⟨17, ⟨13, ⟨0, Nat.zero_le _, .root h.root, by decide⟩, h.type, h.qclass, rfl⟩, {
      answerCount := ?_
      authorityCount := h.authorityCount
      additionalCount := h.additionalCount
      records := ⟨17 + 14 * n, ?_⟩
      oneOpt := Nat.zero_le _
      rootOpt := fun _ hr => absurd hr List.not_mem_nil }⟩
    · show _ = some ((List.range' 0 n).map towerRow).length
      rw [List.length_map, List.length_range']
      exact h.answerCount
    · show RecordsAt m n 17 ((List.range' 0 n).map towerRow ++ ([] ++ [])) (17 + 14 * n)
      rw [List.append_nil, List.append_nil]
      exact recordsAt_tower h hn (Nat.zero_add n)
  wellFormed := by
    refine ⟨fun r hr _ => ?_, ⟨fun r hr hc => ?_, ?_⟩⟩
    · obtain ⟨k, hk, rfl⟩ := List.mem_map.mp hr
      rw [List.mem_range'_1] at hk
      exact ⟨_, txtData_tower h (by omega)⟩
    · obtain ⟨k, _, rfl⟩ := List.mem_map.mp hr
      exact absurd hc.1 (by decide : ¬ TYPE_TXT = TYPE_CNAME)
    · exact fun hlink _ => absurd hlink not_link_tower

/-- Each record of the tower answers. -/
theorem answering_tower (hpos : 0 < n) (hrcode : flags % 16 = 0) :
    Answering m n []
      { flags, answers := (List.range' 0 n).map towerRow, authority := [], additional := [] }
      ((List.range' 0 n).map fun _ => [['a']]) where
  rcode := hrcode
  chain := ⟨0, Nat.zero_le _, [], .asked, .inl fun _ => not_link_tower⟩
  nonempty hnil := by
    have hlen := congrArg List.length hnil
    rw [List.length_map, List.length_range', List.length_nil] at hlen
    omega
  strings := by
    refine ⟨fun r => decide (r.type = TYPE_TXT ∧ r.rrClass = CLASS_IN ∧ r.owner = []), fun r => ?_, ?_⟩
    · rw [decide_eq_true_iff]
      refine and_congr_right fun _ => and_congr_right fun _ => ⟨fun howner => ?_, ?_⟩
      · rw [howner]
        exact ⟨0, Nat.zero_le _, .asked⟩
      · rintro ⟨_, _, hreach⟩
        generalize r.owner = owner at hreach
        cases hreach with
        | asked => rfl
        | link _ hlink => exact absurd hlink not_link_tower
    · have hall : ((List.range' 0 n).map towerRow).filter
          (fun r => decide (r.type = TYPE_TXT ∧ r.rrClass = CLASS_IN ∧ r.owner = [])) =
          (List.range' 0 n).map towerRow := List.filter_eq_self.mpr fun r hr => by
        obtain ⟨k, _, rfl⟩ := List.mem_map.mp hr
        exact decide_eq_true ⟨rfl, rfl, rfl⟩
      show List.Forall₂ (TxtData m) (((List.range' 0 n).map towerRow).filter _) _
      rw [hall, List.forall₂_map_left_iff, List.forall₂_map_right_iff, List.forall₂_same]
      intro k hk
      rw [List.mem_range'_1] at hk
      exact txtData_tower h (by omega)

end Tower

theorem floor_iff {k : ℕ} : Floor m k ↔
    m[17 + 14 * k]? = some (UInt8.ofNat (192 + towerTarget k / 256)) ∧
      m[18 + 14 * k]? = some (UInt8.ofNat (towerTarget k)) ∧
      u16 m (19 + 14 * k) = some TYPE_TXT ∧ u16 m (21 + 14 * k) = some CLASS_IN ∧
      u32 m (23 + 14 * k) = some 0 ∧ u16 m (27 + 14 * k) = some 2 ∧ m[29 + 14 * k]? = some 1 ∧
      text m (30 + 14 * k) (31 + 14 * k) = ['a'] ∧ 31 + 14 * k ≤ m.length :=
  ⟨fun ⟨h₁, h₂, h₃, h₄, h₅, h₆, h₇, h₈, h₉⟩ => ⟨h₁, h₂, h₃, h₄, h₅, h₆, h₇, h₈, h₉⟩,
    fun ⟨h₁, h₂, h₃, h₄, h₅, h₆, h₇, h₈, h₉⟩ => ⟨h₁, h₂, h₃, h₄, h₅, h₆, h₇, h₈, h₉⟩⟩

instance (k : ℕ) : Decidable (Floor m k) := decidable_of_iff _ floor_iff.symm

theorem floors_truncated : Floors (tower 0x8200 1) 0x8200 1 :=
  ⟨rfl, rfl, rfl, rfl, rfl, rfl, rfl, rfl, rfl, by decide +kernel⟩

theorem floors_pointers : Floors (tower 0x8000 33) 0x8000 33 :=
  ⟨rfl, rfl, rfl, rfl, rfl, rfl, rfl, rfl, rfl, by decide +kernel⟩

end BunMail.DnsWire
