import BunMail.Utils.DnsNames

/-!
# Reading the sections

Each function of the parse reads exactly what the wire format says is there, and nothing it does is a
fault: records, the character-strings of a TXT record, and the three sections with their OPT record.
-/

namespace BunMail.DnsWire

open Text Dns

variable {m : Bytes}

/-! ## Records -/

theorem getUint16_eq_ok {i n : ℕ} : getUint16 m i = .ok n ↔ u16 m i = some n := by
  unfold getUint16
  cases u16 m i with
  | none => exact ⟨fun h => (by cases h), fun h => (by cases h)⟩
  | some k => exact ⟨fun h => congrArg some (Except.ok.inj h), fun h => congrArg _ (Option.some.inj h)⟩

theorem getUint32_eq_ok {i n : ℕ} : getUint32 m i = .ok n ↔ u32 m i = some n := by
  unfold getUint32
  cases u32 m i with
  | none => exact ⟨fun h => (by cases h), fun h => (by cases h)⟩
  | some k => exact ⟨fun h => congrArg some (Except.ok.inj h), fun h => congrArg _ (Option.some.inj h)⟩

theorem exists_u16 {i : ℕ} (h : i + 2 ≤ m.length) : ∃ n, u16 m i = some n := by
  unfold u16
  rw [List.getElem?_eq_getElem (by omega), List.getElem?_eq_getElem (by omega)]
  exact ⟨_, rfl⟩

theorem tame_getUint16 {i : ℕ} (h : i + 2 ≤ m.length) : Tame (getUint16 m i) := by
  obtain ⟨n, hn⟩ := exists_u16 h
  rw [getUint16_eq_ok.mpr hn]
  exact tame_ok n

theorem tame_getUint32 {i : ℕ} (h : i + 4 ≤ m.length) : Tame (getUint32 m i) := by
  obtain ⟨hi, hhi⟩ := exists_u16 (m := m) (i := i) (by omega)
  obtain ⟨lo, hlo⟩ := exists_u16 (m := m) (i := i + 2) (by omega)
  have hn : u32 m i = some (65536 * hi + lo) := by
    unfold u32
    rw [hhi, hlo]
    rfl
  rw [getUint32_eq_ok.mpr hn]
  exact tame_ok _

/-- **`readRecord` reads exactly the record at a place.** -/
theorem readRecord_eq_ok {start : ℕ} {r : Record} :
    readRecord m start = .ok r ↔ RecordAt m MAX_POINTER_JUMPS start r := by
  unfold readRecord RecordAt
  rw [bind_eq_ok]
  constructor
  · rintro ⟨⟨labels, next⟩, hname, h⟩
    dsimp only at h
    split_ifs at h with hshort
    obtain ⟨rdlength, hlen, h⟩ := bind_eq_ok.mp h
    split_ifs at h with hpast
    obtain ⟨type, htype, h⟩ := bind_eq_ok.mp h
    obtain ⟨rrClass, hclass, h⟩ := bind_eq_ok.mp h
    obtain ⟨ttl, httl, h⟩ := bind_eq_ok.mp h
    obtain rfl := Except.ok.inj h
    exact ⟨next, rdlength, readName_eq_ok.mp hname, getUint16_eq_ok.mp htype,
      getUint16_eq_ok.mp hclass, getUint32_eq_ok.mp httl, getUint16_eq_ok.mp hlen, rfl, rfl,
      not_lt.mp hpast⟩
  · rintro ⟨next, rdlength, hname, htype, hclass, httl, hlen, hstart, hend, hpast⟩
    refine ⟨⟨r.owner, next⟩, readName_eq_ok.mpr hname, ?_⟩
    have hfits : ¬ m.length < next + 10 := by omega
    have hfits' : ¬ m.length < next + 10 + rdlength := by omega
    dsimp only
    rw [if_neg hfits]
    refine bind_eq_ok.mpr ⟨rdlength, getUint16_eq_ok.mpr hlen, ?_⟩
    rw [if_neg hfits']
    refine bind_eq_ok.mpr ⟨r.type, getUint16_eq_ok.mpr htype, ?_⟩
    refine bind_eq_ok.mpr ⟨r.rrClass, getUint16_eq_ok.mpr hclass, ?_⟩
    refine bind_eq_ok.mpr ⟨r.ttl, getUint32_eq_ok.mpr httl, ?_⟩
    rw [← hend, ← hstart]

theorem tame_readRecord (start : ℕ) : Tame (readRecord m start) := by
  unfold readRecord
  refine (tame_readName start).bind fun ⟨labels, next⟩ _ => ?_
  dsimp only
  split_ifs with hshort
  · exact tame_malformed
  · refine (tame_getUint16 (by omega)).bind fun rdlength _ => ?_
    split_ifs with hpast
    · exact tame_malformed
    · refine (tame_getUint16 (by omega)).bind fun _ _ => ?_
      refine (tame_getUint16 (by omega)).bind fun _ _ => ?_
      exact (tame_getUint32 (by omega)).bind fun _ _ => tame_ok _

/-- RDATA lies inside the message. -/
theorem rdata_of_recordAt {limit start : ℕ} {r : Record} (h : RecordAt m limit start r) :
    r.rdataStart ≤ r.rdataEnd ∧ r.rdataEnd ≤ m.length := by
  obtain ⟨next, rdlength, _, _, _, _, _, hstart, hend, hpast⟩ := h
  exact ⟨by omega, hpast⟩

/-! ## Character-strings -/

theorem readStrings_eq_ok {stop steps at_ : ℕ} {acc strings : List Text} (hstop : stop ≤ m.length)
    (hat : at_ ≤ stop) (hsteps : stop < steps + at_) :
    readStrings m stop steps acc at_ = .ok strings ↔
      ∃ read, Strings m stop at_ read ∧ strings = acc ++ read := by
  induction steps generalizing acc at_ with
  | zero => omega
  | succ steps ih =>
    unfold readStrings
    rcases hat.lt_or_eq with hlt | rfl
    · obtain ⟨length, hlength⟩ : ∃ length, m[at_]? = some length :=
        ⟨_, List.getElem?_eq_getElem (by omega)⟩
      rw [if_pos hlt, hlength, Option.getD_some]
      dsimp only
      by_cases hover : stop < at_ + 1 + length.toNat
      · rw [if_pos hover]
        refine ⟨fun h => (by cases h), ?_⟩
        rintro ⟨read, hread, _⟩
        cases hread with
        | nil => omega
        | cons h hend _ =>
          rw [hlength] at h
          obtain rfl := Option.some.inj h
          omega
      · have hfits : at_ + 1 + length.toNat ≤ stop := not_lt.mp hover
        rw [if_neg hover]
        unfold latin1
        rw [if_pos ⟨Nat.le_add_right _ _, hfits.trans hstop⟩]
        refine (ih hfits (by omega)).trans ?_
        constructor
        · rintro ⟨read, hread, rfl⟩
          exact ⟨_, .cons hlength hfits hread, by rw [List.append_assoc]; rfl⟩
        · rintro ⟨read, hread, rfl⟩
          cases hread with
          | nil => omega
          | cons h hend hrest =>
            rw [hlength] at h
            obtain rfl := Option.some.inj h
            exact ⟨_, hrest, by rw [List.append_assoc]; rfl⟩
    · rw [if_neg (lt_irrefl _)]
      constructor
      · intro h
        obtain rfl := Except.ok.inj h
        exact ⟨[], .nil, (List.append_nil _).symm⟩
      · rintro ⟨read, hread, rfl⟩
        cases hread with
        | nil => rw [List.append_nil]
        | cons _ hend _ => omega

theorem tame_readStrings {stop steps at_ : ℕ} {acc : List Text} (hstop : stop ≤ m.length)
    (hat : at_ ≤ stop) (hsteps : stop < steps + at_) : Tame (readStrings m stop steps acc at_) := by
  induction steps generalizing acc at_ with
  | zero => omega
  | succ steps ih =>
    unfold readStrings
    dsimp only
    split_ifs with hlt hover
    · exact tame_malformed
    · unfold latin1
      rw [if_pos ⟨Nat.le_add_right _ _, (not_lt.mp hover).trans hstop⟩]
      exact ih (not_lt.mp hover) (by omega)
    · exact tame_ok _

/-- **`txtStrings` reads exactly the strings that fill the RDATA.** -/
theorem txtStrings_eq_ok {r : Record} {strings : List Text}
    (h : r.rdataStart ≤ r.rdataEnd ∧ r.rdataEnd ≤ m.length) :
    txtStrings m r = .ok strings ↔ TxtData m r strings := by
  unfold txtStrings TxtData
  rw [bind_eq_ok]
  constructor
  · rintro ⟨read, hread, heq⟩
    split_ifs at heq with hne
    obtain rfl := Except.ok.inj heq
    obtain ⟨read', hread', rfl⟩ := (readStrings_eq_ok h.2 h.1 (by omega)).mp hread
    exact ⟨hne, hread'⟩
  · rintro ⟨hne, hread⟩
    refine ⟨strings, (readStrings_eq_ok h.2 h.1 (by omega)).mpr ⟨strings, hread, rfl⟩, if_neg hne⟩

theorem tame_txtStrings {r : Record} (h : r.rdataStart ≤ r.rdataEnd ∧ r.rdataEnd ≤ m.length) :
    Tame (txtStrings m r) := by
  unfold txtStrings
  refine (tame_readStrings h.2 h.1 (by omega)).bind fun strings _ => ?_
  split_ifs
  · exact tame_malformed
  · exact tame_ok _

/-! ## Sections -/

/-- The sections of a message and its flags. -/
structure Message where
  flags : ℕ
  answers : List Record
  authority : List Record
  additional : List Record

/-- The OPT records of the additional section. -/
def Message.opts (msg : Message) : List Record := msg.additional.filter fun r => r.type = TYPE_OPT

/-- The counts and the records of the sections; one OPT record at most, owned by the root. -/
structure Sections (m : Bytes) (limit start : ℕ) (msg : Message) : Prop where
  answerCount : u16 m 6 = some msg.answers.length
  authorityCount : u16 m 8 = some msg.authority.length
  additionalCount : u16 m 10 = some msg.additional.length
  records : ∃ stop, RecordsAt m limit start (msg.answers ++ (msg.authority ++ msg.additional)) stop
  oneOpt : msg.opts.length ≤ 1
  rootOpt : ∀ r ∈ msg.opts, r.owner = []

/-- What the loop over the sections does with records it has read. -/
def takeAll (answerCount authorityCount : ℕ) : (i : ℕ) → SectionState → List Record →
    Except Fault SectionState
  | _, s, [] => .ok s
  | i, s, r :: rs => do
    let s ← takeRecord answerCount authorityCount i s r
    takeAll answerCount authorityCount (i + 1) s rs

section Loop

variable {answerCount authorityCount : ℕ}

/-- **The loop over the sections reads the records one after the other.** -/
theorem readRecords_eq_ok {left i at_ : ℕ} {s s' : SectionState} :
    readRecords m answerCount authorityCount left i at_ s = .ok s' ↔
      ∃ rs stop, rs.length = left ∧ RecordsAt m MAX_POINTER_JUMPS at_ rs stop ∧
        takeAll answerCount authorityCount i s rs = .ok s' := by
  induction left generalizing i at_ s with
  | zero =>
    constructor
    · intro h
      exact ⟨[], at_, rfl, .nil, h⟩
    · rintro ⟨rs, stop, hlen, _, h⟩
      obtain rfl := List.length_eq_zero_iff.mp hlen
      exact h
  | succ left ih =>
    unfold readRecords
    constructor
    · intro h
      obtain ⟨r, hr, h⟩ := bind_eq_ok.mp h
      obtain ⟨s₁, hs₁, h⟩ := bind_eq_ok.mp h
      obtain ⟨rs, stop, hlen, hrs, htake⟩ := ih.mp h
      refine ⟨r :: rs, stop, by rw [List.length_cons, hlen], .cons (readRecord_eq_ok.mp hr) hrs, ?_⟩
      exact bind_eq_ok.mpr ⟨s₁, hs₁, htake⟩
    · rintro ⟨rs, stop, hlen, hrs, htake⟩
      cases hrs with
      | nil => cases hlen
      | @cons _ _ r rs hr hrest =>
        obtain ⟨s₁, hs₁, htake⟩ := bind_eq_ok.mp htake
        refine bind_eq_ok.mpr ⟨r, readRecord_eq_ok.mpr hr, bind_eq_ok.mpr ⟨s₁, hs₁, ?_⟩⟩
        exact ih.mpr ⟨rs, stop, Nat.succ.inj hlen, hrest, htake⟩

theorem tame_takeRecord (i : ℕ) (s : SectionState) (r : Record) :
    Tame (takeRecord answerCount authorityCount i s r) := by
  unfold takeRecord
  split_ifs
  · exact tame_ok _
  · exact tame_malformed
  · exact tame_ok _
  · exact tame_ok _

theorem tame_readRecords (left i at_ : ℕ) (s : SectionState) :
    Tame (readRecords m answerCount authorityCount left i at_ s) := by
  induction left generalizing i at_ s with
  | zero => exact tame_ok _
  | succ left ih =>
    exact (tame_readRecord at_).bind fun r _ => (tame_takeRecord i s r).bind fun s' _ => ih _ _ s'

theorem takeAll_append {i : ℕ} {s : SectionState} {rs rs' : List Record} :
    takeAll answerCount authorityCount i s (rs ++ rs') =
      takeAll answerCount authorityCount i s rs >>= fun s =>
        takeAll answerCount authorityCount (i + rs.length) s rs' := by
  induction rs generalizing i s with
  | nil => rfl
  | cons r rs ih =>
    show (takeRecord _ _ i s r >>= fun s => takeAll _ _ (i + 1) s (rs ++ rs')) = _
    simp only [ih, List.length_cons]
    show _ = ((takeRecord _ _ i s r >>= fun s => takeAll _ _ (i + 1) s rs) >>= _)
    cases takeRecord answerCount authorityCount i s r with
    | error _ => rfl
    | ok s₁ =>
      show (takeAll _ _ (i + 1) s₁ rs >>= _) = (takeAll _ _ (i + 1) s₁ rs >>= _)
      rw [Nat.add_assoc i 1, Nat.add_comm 1]

/-- The answer section is kept. -/
theorem takeAll_answers {i : ℕ} {s : SectionState} {rs : List Record}
    (h : i + rs.length ≤ answerCount) :
    takeAll answerCount authorityCount i s rs = .ok { s with answers := s.answers ++ rs } := by
  induction rs generalizing i s with
  | nil =>
    show Except.ok s = _
    rw [List.append_nil]
  | cons r rs ih =>
    rw [List.length_cons] at h
    unfold takeAll takeRecord
    rw [if_pos (by omega)]
    refine (ih (i := i + 1) (by omega)).trans ?_
    rw [List.append_assoc]
    rfl

/-- The authority section is passed over. -/
theorem takeAll_authority {i : ℕ} {s : SectionState} {rs : List Record} (hi : answerCount ≤ i)
    (h : i + rs.length ≤ answerCount + authorityCount) :
    takeAll answerCount authorityCount i s rs = .ok s := by
  induction rs generalizing i with
  | nil => rfl
  | cons r rs ih =>
    rw [List.length_cons] at h
    unfold takeAll takeRecord
    rw [if_neg (by omega), if_neg (by omega)]
    exact ih (by omega) (by omega)

/-- The additional section gives its OPT records. -/
theorem takeAll_additional {i : ℕ} {s s' : SectionState} {rs : List Record}
    (hi : answerCount + authorityCount ≤ i) :
    takeAll answerCount authorityCount i s rs = .ok s' ↔
      ((∀ r ∈ rs.filter fun r => r.type = TYPE_OPT, r.owner = []) ∧
        ((rs.filter fun r => r.type = TYPE_OPT) ≠ [] →
          s.optRecords + (rs.filter fun r => r.type = TYPE_OPT).length ≤ 1)) ∧
      s' = { s with
        optRecords := s.optRecords + (rs.filter fun r => r.type = TYPE_OPT).length
        rcode := (rs.filter fun r => r.type = TYPE_OPT).foldl
          (fun rcode r => rcode ||| (r.ttl >>> 24) <<< 4) s.rcode } := by
  induction rs generalizing i s with
  | nil =>
    constructor
    · intro h
      obtain rfl := Except.ok.inj h
      exact ⟨⟨fun _ h => absurd h List.not_mem_nil, fun h => absurd rfl h⟩, rfl⟩
    · rintro ⟨_, rfl⟩
      rfl
  | cons r rs ih =>
    unfold takeAll takeRecord
    rw [if_neg (by omega)]
    by_cases hopt : r.type = TYPE_OPT
    · have hfilter : (r :: rs).filter (fun r => r.type = TYPE_OPT) =
          r :: rs.filter fun r => r.type = TYPE_OPT := List.filter_cons_of_pos (decide_eq_true hopt)
      rw [if_pos ⟨hi, hopt⟩, hfilter]
      generalize hopts : (rs.filter fun r => r.type = TYPE_OPT) = opts at ih
      simp only [List.forall_mem_cons, List.length_cons, List.foldl_cons]
      by_cases hbad : 1 < s.optRecords + 1 ∨ 0 < r.owner.length
      · rw [if_pos hbad]
        refine ⟨fun h => (by cases h), fun ⟨⟨⟨howner, _⟩, hlen⟩, _⟩ => ?_⟩
        have := hlen (List.cons_ne_nil _ _)
        rw [howner] at hbad
        simp only [List.length_nil, lt_irrefl, or_false] at hbad
        omega
      · rw [if_neg hbad]
        rw [not_or, not_lt, not_lt] at hbad
        have howner : r.owner = [] := List.length_eq_zero_iff.mp (Nat.le_zero.mp hbad.2)
        refine (ih (i := i + 1) (by omega)).trans ?_
        constructor
        · rintro ⟨⟨howners, hlen⟩, rfl⟩
          have hnil : opts = [] := by
            by_contra hne
            have hpos := List.length_pos_iff.mpr hne
            have := hlen hne
            dsimp only at this
            omega
          refine ⟨⟨⟨howner, howners⟩, fun _ => ?_⟩, ?_⟩
          · rw [hnil, List.length_nil]
            exact hbad.1
          · rw [hnil]
            rfl
        · rintro ⟨⟨⟨_, howners⟩, hlen⟩, rfl⟩
          have hle := hlen (List.cons_ne_nil _ _)
          have hnil : opts = [] := List.length_eq_zero_iff.mp (by omega)
          refine ⟨⟨howners, fun hne => absurd hnil hne⟩, ?_⟩
          rw [hnil]
          rfl
    · have hfilter : (r :: rs).filter (fun r => r.type = TYPE_OPT) =
          rs.filter fun r => r.type = TYPE_OPT :=
        List.filter_cons_of_neg (by rw [decide_eq_true_eq]; exact hopt)
      rw [if_neg fun h => hopt h.2, hfilter]
      exact ih (by omega)

end Loop

/-- The response code, with the upper bits that the OPT records carry. -/
def Message.rcode (msg : Message) : ℕ :=
  msg.opts.foldl (fun rcode r => rcode ||| (r.ttl >>> 24) <<< 4) (msg.flags % 16)

theorem recordsAt_append {limit at_ stop : ℕ} {rs rs' : List Record}
    (h : RecordsAt m limit at_ rs stop) {stop' : ℕ} (h' : RecordsAt m limit stop rs' stop') :
    RecordsAt m limit at_ (rs ++ rs') stop' := by
  induction h with
  | nil => exact h'
  | cons h _ ih => exact .cons h (ih h')

/-- **The loop over the sections, on a message.** -/
theorem readRecords_message {start flags answerCount authorityCount additionalCount : ℕ}
    (hanswer : u16 m 6 = some answerCount) (hauthority : u16 m 8 = some authorityCount)
    (hadditional : u16 m 10 = some additionalCount) {s : SectionState} :
    readRecords m answerCount authorityCount (answerCount + authorityCount + additionalCount) 0 start
        { answers := [], optRecords := 0, rcode := flags % 16 } = .ok s ↔
      ∃ msg : Message, msg.flags = flags ∧ Sections m MAX_POINTER_JUMPS start msg ∧
        s = { answers := msg.answers, optRecords := msg.opts.length, rcode := msg.rcode } := by
  rw [readRecords_eq_ok]
  constructor
  · rintro ⟨rs, stop, hlen, hrs, htake⟩
    have hcut : rs = rs.take answerCount ++ ((rs.drop answerCount).take authorityCount ++
        (rs.drop answerCount).drop authorityCount) := by
      rw [List.take_append_drop, List.take_append_drop]
    generalize hanswers : rs.take answerCount = answers at hcut
    generalize hauthorities : (rs.drop answerCount).take authorityCount = authority at hcut
    generalize hadditionals : (rs.drop answerCount).drop authorityCount = additional at hcut
    have hlen₁ : answers.length = answerCount := by
      rw [← hanswers, List.length_take]
      omega
    have hlen₂ : authority.length = authorityCount := by
      rw [← hauthorities, List.length_take, List.length_drop]
      omega
    have hlen₃ : additional.length = additionalCount := by
      rw [← hadditionals, List.length_drop, List.length_drop]
      omega
    rw [hcut] at hrs htake
    rw [takeAll_append, takeAll_answers (by omega)] at htake
    change takeAll _ _ _ _ _ = _ at htake
    rw [takeAll_append, takeAll_authority (by omega) (by omega)] at htake
    obtain ⟨⟨hroot, hone⟩, rfl⟩ := (takeAll_additional (by omega)).mp htake
    refine ⟨⟨flags, answers, authority, additional⟩, rfl, {
      answerCount := by rw [hanswer, hlen₁]
      authorityCount := by rw [hauthority, hlen₂]
      additionalCount := by rw [hadditional, hlen₃]
      records := ⟨stop, hrs⟩
      oneOpt := ?_
      rootOpt := hroot }, ?_⟩
    · by_cases hnil : (additional.filter fun r => r.type = TYPE_OPT) = []
      · show (additional.filter fun r => r.type = TYPE_OPT).length ≤ 1
        rw [hnil]
        exact Nat.zero_le _
      · have := hone hnil
        dsimp only at this
        rwa [Nat.zero_add] at this
    · dsimp only
      rw [Nat.zero_add, List.nil_append]
      rfl
  · rintro ⟨msg, rfl, hs, rfl⟩
    obtain rfl := Option.some.inj (hanswer.symm.trans hs.answerCount)
    obtain rfl := Option.some.inj (hauthority.symm.trans hs.authorityCount)
    obtain rfl := Option.some.inj (hadditional.symm.trans hs.additionalCount)
    obtain ⟨stop, hrs⟩ := hs.records
    refine ⟨_, stop, ?_, hrs, ?_⟩
    · rw [List.length_append, List.length_append, Nat.add_assoc]
    · rw [takeAll_append, takeAll_answers (by omega)]
      change takeAll _ _ _ _ _ = _
      rw [takeAll_append, takeAll_authority (by omega) (by omega)]
      refine (takeAll_additional (by omega)).mpr ⟨⟨hs.rootOpt, fun _ => ?_⟩, ?_⟩
      · dsimp only
        rw [Nat.zero_add]
        exact hs.oneOpt
      · dsimp only
        rw [Nat.zero_add, List.nil_append]
        rfl

end BunMail.DnsWire
