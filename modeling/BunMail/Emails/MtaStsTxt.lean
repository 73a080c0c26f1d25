import BunMail.Lib.Strip

/-!
# The TXT record of MTA-STS

`parseMtaStsTxt` of `mta-sts-policy.ts`, and the grammar of section 3.1 of RFC 8461.
-/

namespace BunMail.Emails

open Text

/-! ## The reader -/

/-- `STS_ID_RE`. -/
def isStsId (value : Text) : Bool :=
  value.all Char.isAlphanum && decide (1 ≤ value.length) && decide (value.length ≤ 32)

/-- A character of `STS_EXT_NAME_RE` after the first. -/
def isExtNameChar (c : Char) : Bool := c.isAlphanum || c = '_' || c = '.' || c = '-'

/-- `STS_EXT_NAME_RE`. -/
def isStsExtName (name : Text) : Bool :=
  name.head?.any Char.isAlphanum && name.tail.all isExtNameChar && decide (name.length ≤ 32)

/-- A character of `STS_EXT_VALUE_RE`. -/
def isExtValueChar (c : Char) : Bool :=
  (decide (0x21 ≤ c.toNat) && decide (c.toNat ≤ 0x3a)) || decide (c.toNat = 0x3c) ||
    (decide (0x3e ≤ c.toNat) && decide (c.toNat ≤ 0x7e))

/-- `STS_EXT_VALUE_RE`. -/
def isStsExtValue (value : Text) : Bool := decide (value ≠ []) && value.all isExtValueChar

/-- The turn of one field and its index, after the version; `none` is the early `return null`. -/
def stsField (length : ℕ) (id : Option Text) (entry : Text × ℕ) : Option (Option Text) :=
  let field := entry.1
  if field = [] then if entry.2 + 2 = length then some id else none
  else
    let name := field.takeWhile (· ≠ '=')
    if '=' ∉ field ∨ name = [] then none
    else
      let value := (field.dropWhile (· ≠ '=')).tail
      if name = "id".toList then if id.isSome || !isStsId value then none else some (some value)
      else if isStsExtName name && isStsExtValue value then some id
      else none

/-- The fields of the one candidate. -/
def readFields (fields : List Text) : Option Text :=
  if fields.head? = some "v=STSv1".toList then
    (fields.tail.zipIdx.foldlM (stsField fields.length) none).join
  else none

/-- What comes after the filter: anything but one candidate is no record. -/
def readCandidates : List Text → Option Text
  | [text] => readFields ((text.splitOn ';').map trim)
  | _ => none

/-- The joined records that start with `v=STSv1`. -/
def stsCandidates (records : List (List Text)) : List Text :=
  (records.map List.flatten).filter ("v=STSv1".toList.isPrefixOf ·)

/-- `parseMtaStsTxt`. -/
def parseMtaStsTxt (records : List (List Text)) : Option Text := readCandidates (stsCandidates records)

/-! ## The grammar -/

/-- `sts-id` and `sts-extension`, with the name and the value; an extension has a name of its own. -/
inductive StsField : Text → Text × Text → Prop
  | id {value : Text} (hlow : 1 ≤ value.length) (hhigh : value.length ≤ 32)
      (hvalue : ∀ c ∈ value, c.isAlphanum = true) : StsField ("id=".toList ++ value) ("id".toList, value)
  | extension {c : Char} {more value : Text} (hname : c :: more ≠ "id".toList)
      (hc : c.isAlphanum = true) (hlength : more.length ≤ 31)
      (hmore : ∀ d ∈ more, d.isAlphanum = true ∨ d = '_' ∨ d = '-' ∨ d = '.') (hne : value ≠ [])
      (hvalue : ∀ d ∈ value, 0x21 ≤ d.toNat ∧ d.toNat ≤ 0x3a ∨ d.toNat = 0x3c ∨
        0x3e ≤ d.toNat ∧ d.toNat ≤ 0x7e) :
      StsField ((c :: more) ++ '=' :: value) (c :: more, value)

/-- `sts-field-delim`, with white space of a kind on both sides of the `;`. -/
def IsDelimiter (space : Char → Bool) (d : Text) : Prop :=
  ∃ a b, d = a ++ ';' :: b ∧ (∀ c ∈ a, space c = true) ∧ ∀ c ∈ b, space c = true

/-- The fields, each after a delimiter, and what may follow the last one: a delimiter, or white space of
a kind. -/
inductive StsFields (space final : Char → Bool) : Text → List (Text × Text) → Prop
  | ending {s : Text} (h : ∀ c ∈ s, final c = true) : StsFields space final s []
  | delimiter {d : Text} (h : IsDelimiter space d) : StsFields space final d []
  | field {d f rest : Text} {nv : Text × Text} {fields : List (Text × Text)} (hd : IsDelimiter space d)
      (hf : StsField f nv) (hrest : StsFields space final rest fields) :
      StsFields space final (d ++ (f ++ rest)) (nv :: fields)

/-- `sts-text-record`. -/
def StsTextRecord (space final : Char → Bool) (text : Text) (fields : List (Text × Text)) : Prop :=
  ∃ rest, text = "v=STSv1".toList ++ rest ∧ StsFields space final rest fields

/-- `WSP`. -/
def isWsp (c : Char) : Bool := c = ' ' || c = '\t'

/-- Nothing may follow the last field but a delimiter. -/
def nothing (_ : Char) : Bool := false

/-- The values of the fields named `id`. -/
def idsOf (fields : List (Text × Text)) : List Text :=
  (fields.filter (·.1 = "id".toList)).map Prod.snd

/-! ## One field -/

section Field

variable {f name value more : Text} {nv : Text × Text} {id r : Option Text} {c : Char}

theorem isStsId_iff : isStsId value = true ↔
    (∀ c ∈ value, c.isAlphanum = true) ∧ 1 ≤ value.length ∧ value.length ≤ 32 := by
  unfold isStsId
  rw [Bool.and_eq_true, Bool.and_eq_true, List.all_eq_true, decide_eq_true_iff, decide_eq_true_iff,
    and_assoc]

theorem isExtNameChar_iff :
    isExtNameChar c = true ↔ c.isAlphanum = true ∨ c = '_' ∨ c = '-' ∨ c = '.' := by
  unfold isExtNameChar
  simp only [Bool.or_eq_true, decide_eq_true_eq]
  tauto

theorem isStsExtName_cons : isStsExtName (c :: more) = true ↔ c.isAlphanum = true ∧
    more.length ≤ 31 ∧ ∀ d ∈ more, d.isAlphanum = true ∨ d = '_' ∨ d = '-' ∨ d = '.' := by
  have hlength : (c :: more).length ≤ 32 ↔ more.length ≤ 31 := Nat.succ_le_succ_iff
  unfold isStsExtName
  rw [Bool.and_eq_true, Bool.and_eq_true, List.all_eq_true, decide_eq_true_iff, hlength, and_assoc,
    and_comm (b := more.length ≤ 31)]
  simp only [List.head?_cons, Option.any_some, List.tail_cons, isExtNameChar_iff]

theorem isExtValueChar_iff : isExtValueChar c = true ↔
    0x21 ≤ c.toNat ∧ c.toNat ≤ 0x3a ∨ c.toNat = 0x3c ∨ 0x3e ≤ c.toNat ∧ c.toNat ≤ 0x7e := by
  unfold isExtValueChar
  simp only [Bool.or_eq_true, Bool.and_eq_true, decide_eq_true_eq, or_assoc]

theorem isStsExtValue_iff : isStsExtValue value = true ↔ value ≠ [] ∧ ∀ d ∈ value,
    0x21 ≤ d.toNat ∧ d.toNat ≤ 0x3a ∨ d.toNat = 0x3c ∨ 0x3e ≤ d.toNat ∧ d.toNat ≤ 0x7e := by
  unfold isStsExtValue
  rw [Bool.and_eq_true, decide_eq_true_iff, List.all_eq_true]
  simp only [isExtValueChar_iff]

theorem isAlphanum_toNat (h : c.isAlphanum = true) :
    48 ≤ c.toNat ∧ c.toNat ≤ 57 ∨ 65 ≤ c.toNat ∧ c.toNat ≤ 90 ∨ 97 ≤ c.toNat ∧ c.toNat ≤ 122 := by
  unfold Char.isAlphanum Char.isAlpha Char.isUpper Char.isLower Char.isDigit at h
  simp only [Bool.or_eq_true, Bool.and_eq_true, decide_eq_true_eq, UInt32.le_iff_toNat_le] at h
  simp only [Char.toNat]
  have h48 : (48 : UInt32).toNat = 48 := rfl
  have h57 : (57 : UInt32).toNat = 57 := rfl
  have h65 : (65 : UInt32).toNat = 65 := rfl
  have h90 : (90 : UInt32).toNat = 90 := rfl
  have h97 : (97 : UInt32).toNat = 97 := rfl
  have h122 : (122 : UInt32).toNat = 122 := rfl
  grind

/-- The characters of a field are printable, and none is a `;`. -/
theorem StsField.char (h : StsField f nv) (hc : c ∈ f) : 0x21 ≤ c.toNat ∧ c.toNat ≤ 0x7e ∧ c ≠ ';' := by
  have hne : ∀ {d : Char}, d.toNat ≠ 0x3b → d ≠ ';' := fun hd heq => hd (heq ▸ rfl)
  have halnum : ∀ {d : Char}, d.isAlphanum = true → 0x21 ≤ d.toNat ∧ d.toNat ≤ 0x7e ∧ d ≠ ';' :=
    fun hd => by have := isAlphanum_toNat hd; exact ⟨by omega, by omega, hne (by omega)⟩
  cases h with
  | id _ _ hvalue =>
    rcases List.mem_append.mp hc with hc | hc
    · fin_cases hc <;> decide
    · exact halnum (hvalue c hc)
  | extension _ hfirst _ hmore _ hvalue =>
    rcases List.mem_append.mp hc with hc | hc
    · rcases List.mem_cons.mp hc with rfl | hc
      · exact halnum hfirst
      · rcases hmore c hc with h | rfl | rfl | rfl
        · exact halnum h
        all_goals decide
    · rcases List.mem_cons.mp hc with rfl | hc
      · decide
      · have := hvalue c hc
        exact ⟨by omega, by omega, hne (by omega)⟩

/-- The name of a field ends at its first `=`. -/
theorem StsField.split (h : StsField f nv) : f = nv.1 ++ '=' :: nv.2 ∧ nv.1 ≠ [] ∧ '=' ∉ nv.1 := by
  cases h with
  | id _ _ _ => exact ⟨rfl, List.cons_ne_nil _ _, show '=' ∉ "id".toList by decide⟩
  | extension _ hfirst _ hmore _ _ =>
    refine ⟨rfl, List.cons_ne_nil _ _, fun hmem => ?_⟩
    rcases List.mem_cons.mp hmem with rfl | hmem
    · exact absurd hfirst (by decide)
    · rcases hmore _ hmem with h | h | h | h <;> exact absurd h (by decide)

theorem ne_equals (h : '=' ∉ name) : ∀ c ∈ name, decide (c ≠ '=') = true := fun _ hc =>
  decide_eq_true fun heq => h (heq ▸ hc)

theorem takeWhile_name (h : '=' ∉ name) : (name ++ '=' :: value).takeWhile (· ≠ '=') = name := by
  rw [List.takeWhile_append_of_pos (ne_equals h), List.takeWhile_cons_of_neg (by decide), List.append_nil]

theorem dropWhile_name (h : '=' ∉ name) :
    ((name ++ '=' :: value).dropWhile (· ≠ '=')).tail = value := by
  rw [List.dropWhile_append_of_pos (ne_equals h), List.dropWhile_cons_of_neg (by decide), List.tail_cons]

theorem exists_name (h : '=' ∈ f) : ∃ name value, f = name ++ '=' :: value ∧ '=' ∉ name := by
  obtain ⟨name, value, rfl, hname⟩ := List.eq_append_cons_of_mem h
  exact ⟨name, value, rfl, hname⟩

/-- What is asked of a name and a value. -/
def fieldOk (name value : Text) : Bool :=
  if name = "id".toList then isStsId value else isStsExtName name && isStsExtValue value

theorem stsField_iff_fieldOk (hname : '=' ∉ name) (hne : name ≠ []) :
    StsField (name ++ '=' :: value) nv ↔ nv = (name, value) ∧ fieldOk name value = true := by
  unfold fieldOk
  constructor
  · intro h
    obtain ⟨hsplit, -, hfree⟩ := h.split
    have hpair : nv = (name, value) := by
      have hleft : (name ++ '=' :: value).takeWhile (· ≠ '=') = name := takeWhile_name hname
      have hright : ((name ++ '=' :: value).dropWhile (· ≠ '=')).tail = value := dropWhile_name hname
      rw [hsplit, takeWhile_name hfree] at hleft
      rw [hsplit, dropWhile_name hfree] at hright
      exact Prod.ext hleft hright
    refine ⟨hpair, ?_⟩
    generalize name ++ '=' :: value = text at h
    cases h with
    | id hlow hhigh hvalue =>
      obtain ⟨rfl, rfl⟩ := Prod.mk.inj hpair
      rw [if_pos rfl]
      exact isStsId_iff.mpr ⟨hvalue, hlow, hhigh⟩
    | extension hother hfirst hlength hmore hvalue_ne hvalue =>
      obtain ⟨rfl, rfl⟩ := Prod.mk.inj hpair
      rw [if_neg hother, Bool.and_eq_true]
      exact ⟨isStsExtName_cons.mpr ⟨hfirst, hlength, hmore⟩, isStsExtValue_iff.mpr ⟨hvalue_ne, hvalue⟩⟩
  · rintro ⟨rfl, hok⟩
    by_cases hid : name = "id".toList
    · rw [if_pos hid] at hok
      obtain ⟨hvalue, hlow, hhigh⟩ := isStsId_iff.mp hok
      subst hid
      exact StsField.id hlow hhigh hvalue
    · rw [if_neg hid, Bool.and_eq_true] at hok
      cases name with
      | nil => exact absurd rfl hne
      | cons c more =>
        obtain ⟨hfirst, hlength, hmore⟩ := isStsExtName_cons.mp hok.1
        obtain ⟨hvalue_ne, hvalue⟩ := isStsExtValue_iff.mp hok.2
        exact StsField.extension hid hfirst hlength hmore hvalue_ne hvalue

/-- The turn of a field that has a name. -/
theorem stsField_name (hname : '=' ∉ name) (hne : name ≠ []) (length i : ℕ) :
    stsField length id (name ++ '=' :: value, i) =
      if name = "id".toList then if id.isSome || !isStsId value then none else some (some value)
      else if isStsExtName name && isStsExtValue value then some id else none := by
  unfold stsField
  rw [if_neg (by simp), takeWhile_name hname, dropWhile_name hname, if_neg]
  rintro (h | h)
  · exact h (by simp)
  · exact hne h

/-- **One field.** -/
theorem stsField_iff {length i : ℕ} (hf : f ≠ []) : stsField length id (f, i) = some r ↔
    ∃ nv, StsField f nv ∧ id.toList ++ idsOf [nv] = r.toList := by
  by_cases heq : '=' ∈ f
  · obtain ⟨name, value, rfl, hname⟩ := exists_name heq
    by_cases hne : name = []
    · subst hne
      refine iff_of_false (fun h => ?_) fun ⟨nv, h, _⟩ => ?_
      · unfold stsField at h
        rw [if_neg hf, if_pos (.inr (takeWhile_name hname))] at h
        cases h
      · obtain ⟨hsplit, hne, -⟩ := h.split
        have hleft : ([] ++ '=' :: value).takeWhile (· ≠ '=') = [] := takeWhile_name hname
        rw [hsplit, takeWhile_name h.split.2.2] at hleft
        exact hne hleft
    · rw [stsField_name hname hne]
      have hfield : (∃ nv, StsField (name ++ '=' :: value) nv ∧ id.toList ++ idsOf [nv] = r.toList) ↔
          fieldOk name value = true ∧ id.toList ++ idsOf [(name, value)] = r.toList := by
        simp only [stsField_iff_fieldOk hname hne, and_assoc, exists_eq_left]
      rw [hfield]
      unfold fieldOk idsOf
      by_cases hid : name = "id".toList
      · rw [if_pos hid, if_pos hid, List.filter_cons_of_pos (by simpa using hid)]
        cases hok : isStsId value <;> cases id <;> cases r <;> simp
      · rw [if_neg hid, if_neg hid, List.filter_cons_of_neg (by simpa using hid)]
        cases hok : isStsExtName name && isStsExtValue value <;> cases id <;> cases r <;> simp
  · refine iff_of_false (fun h => ?_) fun ⟨nv, h, _⟩ => ?_
    · unfold stsField at h
      rw [if_neg hf, if_pos (.inl heq)] at h
      cases h
    · exact heq (by rw [h.split.1]; simp)

end Field

/-! ## All fields -/

/-- The fields as the reader has them, stripped: the last may be empty. -/
inductive PartsRead : List Text → List (Text × Text) → Prop
  | nil : PartsRead [] []
  | final : PartsRead [[]] []
  | field {f : Text} {nv : Text × Text} {ps : List Text} {fields : List (Text × Text)}
      (hf : StsField f nv) (hrest : PartsRead ps fields) : PartsRead (f :: ps) (nv :: fields)

section Fields

variable {ps : List Text} {fields : List (Text × Text)} {id r : Option Text}

theorem StsField.ne_nil {f : Text} {nv : Text × Text} (h : StsField f nv) : f ≠ [] := by
  rw [h.split.1]
  simp

theorem toList_inj (h : id.toList = r.toList) : id = r := by
  cases id <;> cases r <;> cases h <;> rfl

theorem idsOf_cons (nv : Text × Text) (fields : List (Text × Text)) :
    idsOf (nv :: fields) = idsOf [nv] ++ idsOf fields := by
  unfold idsOf
  rw [← List.map_append, ← List.filter_append]
  rfl

/-- **The loop.** -/
theorem foldlM_stsField (k : ℕ) : (ps.zipIdx k).foldlM (stsField (k + ps.length + 1)) id = some r ↔
    ∃ fields, PartsRead ps fields ∧ id.toList ++ idsOf fields = r.toList := by
  induction ps generalizing k id with
  | nil =>
    constructor
    · intro h
      cases h
      exact ⟨[], .nil, List.append_nil _⟩
    · rintro ⟨_, ⟨⟩, h⟩
      exact congrArg some (toList_inj ((List.append_nil _).symm.trans h))
  | cons f ps ih =>
    have hlength : k + (f :: ps).length + 1 = k + 1 + ps.length + 1 := by
      rw [List.length_cons]
      omega
    rw [List.zipIdx_cons, List.foldlM_cons, hlength]
    by_cases hf : f = []
    · subst hf
      have hturn : stsField (k + 1 + ps.length + 1) id ([], k) = if ps = [] then some id else none := by
        unfold stsField
        rw [if_pos rfl]
        refine if_congr ?_ rfl rfl
        rw [← List.length_eq_zero_iff]
        show k + 2 = _ ↔ _
        omega
      rw [hturn]
      by_cases hps : ps = []
      · subst hps
        rw [if_pos rfl]
        constructor
        · intro h
          cases h
          exact ⟨[], .final, List.append_nil _⟩
        · rintro ⟨_, ⟨⟩ | ⟨⟩ | ⟨hfield, _⟩, h⟩
          · exact congrArg some (toList_inj ((List.append_nil _).symm.trans h))
          · exact absurd rfl hfield.ne_nil
      · rw [if_neg hps]
        refine iff_of_false nofun ?_
        rintro ⟨_, ⟨⟩ | ⟨⟩ | ⟨hfield, _⟩, _⟩
        · exact hps rfl
        · exact absurd rfl hfield.ne_nil
    · constructor
      · intro h
        obtain ⟨id', hturn, hrest⟩ := Option.bind_eq_some_iff.mp h
        obtain ⟨nv, hfield, hid⟩ := (stsField_iff hf).mp hturn
        obtain ⟨fields, hreads, hids⟩ := (ih (k + 1)).mp hrest
        refine ⟨nv :: fields, .field hfield hreads, ?_⟩
        rw [idsOf_cons, ← List.append_assoc, hid, hids]
      · rintro ⟨_, ⟨⟩ | ⟨⟩ | ⟨hfield, hreads⟩, hids⟩
        · exact absurd rfl hf
        · rename_i nv fields
          rw [idsOf_cons, ← List.append_assoc] at hids
          have hshort : (id.toList ++ idsOf [nv]).length ≤ 1 := by
            have := congrArg List.length hids
            rw [List.length_append] at this
            have := Option.length_toList_le (o := r)
            omega
          obtain ⟨id', hid'⟩ : ∃ id' : Option Text, id.toList ++ idsOf [nv] = id'.toList := by
            rcases hl : id.toList ++ idsOf [nv] with _ | ⟨x, _ | ⟨y, l⟩⟩
            · exact ⟨none, rfl⟩
            · exact ⟨some x, rfl⟩
            · rw [hl] at hshort
              simp at hshort
          refine Option.bind_eq_some_iff.mpr ⟨id', (stsField_iff hf).mpr ⟨nv, hfield, hid'⟩, ?_⟩
          exact (ih (k + 1)).mpr ⟨fields, hreads, hid' ▸ hids⟩

end Fields

/-! ## The text of the fields -/

section Text

variable {s a text : Text} {ps : List Text} {fields : List (Text × Text)} {f : Text} {nv : Text × Text}

theorem semicolon_notMem_of_space (h : ∀ c ∈ a, isSpace c = true) : ';' ∉ a := fun hc =>
  absurd (h _ hc) (by decide)

theorem isSpace_of_printable {c : Char} (hlow : 0x21 ≤ c.toNat) (hhigh : c.toNat ≤ 0x7e) :
    isSpace c = false := by
  unfold isSpace
  simp only [Bool.or_eq_false_iff, Bool.and_eq_false_iff, decide_eq_false_iff_not, beq_eq_false_iff_ne]
  omega

theorem StsField.space (h : StsField f nv) : ∀ c ∈ f, isSpace c = false := fun _ hc =>
  isSpace_of_printable (h.char hc).1 (h.char hc).2.1

theorem StsField.semicolon (h : StsField f nv) : ';' ∉ f := fun hc => (h.char hc).2.2 rfl

theorem trim_field (hf : StsField f nv) {b b' : Text} (hb : ∀ c ∈ b, isSpace c = true)
    (hb' : ∀ c ∈ b', isSpace c = true) : trim (b ++ (f ++ b')) = f := by
  rw [trim_eq_strip]
  exact strip_append hb hf.space hb'

/-- **A derivation is read.** -/
theorem StsFields.partsRead (h : StsFields isSpace isSpace s fields) (hs : s.splitOn ';' = a :: ps) :
    (∀ c ∈ a, isSpace c = true) ∧ PartsRead (ps.map trim) fields := by
  induction h generalizing a ps with
  | ending h =>
    rw [List.splitOn_eq_singleton (semicolon_notMem_of_space h)] at hs
    cases hs
    exact ⟨h, .nil⟩
  | delimiter h =>
    obtain ⟨x, y, rfl, hx, hy⟩ := h
    rw [List.splitOn_append_cons_self_of_not_mem (semicolon_notMem_of_space hx),
      List.splitOn_eq_singleton (semicolon_notMem_of_space hy)] at hs
    cases hs
    refine ⟨hx, ?_⟩
    rw [List.map_singleton, trim_eq_strip, strip_of_all hy]
    exact .final
  | @field d f rest nv fields hd hf hrest ih =>
    obtain ⟨x, y, rfl, hx, hy⟩ := hd
    obtain ⟨b, qs, hsplit⟩ := List.exists_cons_of_ne_nil (List.splitOn_ne_nil ';' rest)
    obtain ⟨hb, hreads⟩ := ih hsplit
    have hpiece : (y ++ (f ++ rest)).splitOn ';' = (y ++ (f ++ b)) :: qs :=
      splitOn_append_of_notMem (semicolon_notMem_of_space hy)
        (splitOn_append_of_notMem hf.semicolon hsplit)
    rw [List.append_assoc, List.cons_append,
      List.splitOn_append_cons_self_of_not_mem (semicolon_notMem_of_space hx), hpiece] at hs
    cases hs
    refine ⟨hx, ?_⟩
    rw [List.map_cons, trim_field hf hy hb]
    exact .field hf hreads

/-- **What is read is derivable.** -/
theorem PartsRead.derivable (h : PartsRead (ps.map trim) fields) (ha : ∀ c ∈ a, isSpace c = true) :
    StsFields isSpace isSpace (a ++ ps.flatMap (';' :: ·)) fields := by
  induction ps generalizing a fields with
  | nil =>
    cases h
    rw [List.flatMap_nil, List.append_nil]
    exact .ending ha
  | cons p ps ih =>
    obtain ⟨b, b', hp, hb, hb'⟩ := exists_strip isSpace p
    rw [List.map_cons] at h
    generalize hf : trim p = f at h
    rw [← trim_eq_strip, hf] at hp
    generalize hqs : ps.map trim = qs at h
    cases h with
    | final =>
      have hnil : ps = [] := List.map_eq_nil_iff.mp hqs
      rw [hnil, List.flatMap_singleton]
      refine .delimiter ⟨a, p, rfl, ha, ?_⟩
      rw [hp]
      exact fun c hc => (List.mem_append.mp hc).elim (hb c) (hb' c)
    | field hfield hrest =>
      rw [← hqs] at hrest
      have htext : a ++ (p :: ps).flatMap (';' :: ·) =
          (a ++ ';' :: b) ++ (f ++ (b' ++ ps.flatMap (';' :: ·))) := by
        rw [List.flatMap_cons, hp]
        simp only [List.append_assoc, List.cons_append]
      rw [htext]
      exact .field ⟨a, b, rfl, ha, hb⟩ hfield (ih hrest hb')

/-- The version is what is left of the first field. -/
theorem trim_version : trim ("v=STSv1".toList ++ a) = "v=STSv1".toList ↔ ∀ c ∈ a, isSpace c = true := by
  constructor
  · intro h
    obtain ⟨x, y, hxy, hx, hy⟩ := exists_strip isSpace ("v=STSv1".toList ++ a)
    rw [← trim_eq_strip, h] at hxy
    cases x with
    | nil => rw [List.nil_append] at hxy; exact List.append_cancel_left hxy ▸ hy
    | cons c x =>
      have hc : 'v' = c := (List.cons.inj hxy).1
      exact absurd (hx c List.mem_cons_self) (by rw [← hc]; decide)
  · intro h
    have hversion : ∀ c ∈ "v=STSv1".toList, isSpace c = false := by simp [isSpace]
    exact strip_append (fun c (hc : c ∈ []) => absurd hc List.not_mem_nil) hversion h

/-- **One candidate.** -/
theorem readCandidates_singleton (rest : Text) (id : Text) :
    readCandidates ["v=STSv1".toList ++ rest] = some id ↔
      ∃ fields, StsFields isSpace isSpace rest fields ∧ idsOf fields = [id] := by
  obtain ⟨a, ps, hsplit⟩ := List.exists_cons_of_ne_nil (List.splitOn_ne_nil ';' rest)
  have hpieces := splitOn_append_of_notMem (u := "v=STSv1".toList) (by decide) hsplit
  have hread : readCandidates ["v=STSv1".toList ++ rest] =
      if trim ("v=STSv1".toList ++ a) = "v=STSv1".toList then
        ((ps.map trim).zipIdx.foldlM (stsField ((ps.map trim).length + 1)) none).join
      else none := by
    show readFields ((("v=STSv1".toList ++ rest).splitOn ';').map trim) = _
    rw [hpieces, List.map_cons]
    exact if_congr Option.some_inj rfl rfl
  rw [hread]
  by_cases ha : ∀ c ∈ a, isSpace c = true
  · rw [if_pos (trim_version.mpr ha), Option.join_eq_some_iff]
    have hloop : ((ps.map trim).zipIdx.foldlM (stsField (0 + (ps.map trim).length + 1)) none =
        some (some id)) ↔ _ := foldlM_stsField 0
    rw [Nat.zero_add] at hloop
    rw [hloop]
    refine exists_congr fun fields => and_congr ⟨fun h => ?_, fun h => (h.partsRead hsplit).2⟩ Iff.rfl
    rw [eq_of_splitOn hsplit]
    exact h.derivable ha
  · rw [if_neg (mt trim_version.mp ha)]
    exact iff_of_false nofun fun ⟨fields, h, _⟩ => ha (h.partsRead hsplit).1

/-- **The TXT record.** An id is returned exactly when one joined record starts with `v=STSv1`, and that
record is derivable, with white space of any kind around its fields, with one `id`. -/
theorem parseMtaStsTxt_iff (records : List (List Text)) (id : Text) :
    parseMtaStsTxt records = some id ↔ ∃ text fields, stsCandidates records = [text] ∧
      StsTextRecord isSpace isSpace text fields ∧ idsOf fields = [id] := by
  unfold parseMtaStsTxt
  cases hc : stsCandidates records with
  | nil => exact iff_of_false nofun fun ⟨_, _, h, _⟩ => by cases h
  | cons text more =>
    cases more with
    | cons text' more => exact iff_of_false nofun fun ⟨_, _, h, _⟩ => by cases h
    | nil =>
      have hmem : text ∈ stsCandidates records := hc ▸ List.mem_singleton_self text
      obtain ⟨rest, rfl⟩ := List.isPrefixOf_iff_prefix.mp (List.mem_filter.mp hmem).2
      rw [readCandidates_singleton]
      constructor
      · rintro ⟨fields, h, hid⟩
        exact ⟨_, fields, rfl, ⟨rest, rfl, h⟩, hid⟩
      · rintro ⟨_, fields, htext, ⟨rest', rfl, h⟩, hid⟩
        cases List.append_cancel_left (List.cons.inj htext).1
        exact ⟨fields, h, hid⟩

/-- What the grammar of the RFC derives is derivable. -/
theorem StsFields.mono {space final space' final' : Char → Bool}
    (hspace : ∀ c, space c = true → space' c = true) (hfinal : ∀ c, final c = true → final' c = true)
    (h : StsFields space final s fields) : StsFields space' final' s fields := by
  have hdelimiter : ∀ {d}, IsDelimiter space d → IsDelimiter space' d := fun ⟨a, b, hd, ha, hb⟩ =>
    ⟨a, b, hd, fun c hc => hspace c (ha c hc), fun c hc => hspace c (hb c hc)⟩
  induction h with
  | ending h => exact .ending fun c hc => hfinal c (h c hc)
  | delimiter h => exact .delimiter (hdelimiter h)
  | field hd hf _ ih => exact .field (hdelimiter hd) hf ih

end Text

end BunMail.Emails
