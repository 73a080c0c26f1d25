import BunMail.Emails.MtaSts
import BunMail.Emails.MtaStsTxt
import BunMail.Utils.RecipientLists

/-!
# MTA-STS policy files

`parseMtaStsPolicy` of `mta-sts-policy.ts`, and how a policy is written as a file.
-/

namespace BunMail.Emails

open Text

/-! ## The reader -/

/-- `MTA_STS_MAX_AGE_CAP_SECONDS`. -/
def MTA_STS_MAX_AGE_CAP_SECONDS : ℕ := 31557600

/-- `MTA_STS_POLICY_MAX_BYTES`. -/
def MTA_STS_POLICY_MAX_BYTES : ℕ := 64 * 1024

/-- The class `[a-z0-9]`. -/
def isLowerAlnum (c : Char) : Bool := c.isLower || c.isDigit

/-- `LABEL`. -/
def isLabel (label : Text) : Bool :=
  label.head?.any isLowerAlnum && label.getLast?.any isLowerAlnum &&
    label.all (fun c => isLowerAlnum c || c = '-') && decide (label.length ≤ 63)

/-- `MX_PATTERN_RE`; no label starts with a `*`. -/
def isMxPattern (pattern : Text) : Bool :=
  ((if "*.".toList.isPrefixOf pattern then pattern.drop 2 else pattern).splitOn '.').all isLabel

/-- The class `[A-Za-z0-9_.-]`. -/
def isKeyChar (c : Char) : Bool := c.isAlphanum || c = '_' || c = '.' || c = '-'

/-- `POLICY_LINE_RE`: the key, and the value without the spaces and tabs around it.  No `.` matches a line
terminator. -/
def policyLine (line : Text) : Option (Text × Text) :=
  let key := line.takeWhile isKeyChar
  let rest := line.dropWhile isKeyChar
  if key ≠ [] ∧ key.length ≤ 32 ∧ rest.head? = some ':' ∧ rest.tail.all (!isLineTerminator ·) then
    some (key, strip isWsp rest.tail)
  else none
where
  /-- What `.` does not match. -/
  isLineTerminator (c : Char) : Bool := c = '\n' || c = '\r' || c = '\u2028' || c = '\u2029'

/-- A line without the `\r` before its `\n`. -/
def dropCr (line : Text) : Text := if line.getLast? = some '\r' then line.dropLast else line

/-- `body.split(/\r?\n/)`. -/
def policyLines (body : Text) : List Text :=
  (body.splitOn '\n').dropLast.map dropCr ++ (body.splitOn '\n').getLast?.toList

/-- What the loop has found. -/
structure PolicyFields where
  single : Text → Option Text
  mx : List Text

/-- `single[key] = value`. -/
def PolicyFields.put (acc : PolicyFields) (key value : Text) : PolicyFields :=
  { acc with single := Function.update acc.single key (some value) }

/-- The keys that may stand once. -/
def SINGLE_KEYS : List Text := ["version", "mode", "max_age"].map String.toList

/-- A mode by its name. -/
def modeOf (value : Text) : Option MtaStsMode :=
  if value = "enforce".toList then some .enforce
  else if value = "testing".toList then some .testing
  else if value = "none".toList then some .none
  else none

/-- `/^\d{1,10}$/`. -/
def isMaxAge (value : Text) : Bool :=
  value.all Char.isDigit && decide (1 ≤ value.length) && decide (value.length ≤ 10)

section Parse

variable (toLowerCase : Text → Text)

/-- `mxPattern`. -/
def mxPattern (value : Text) : Option Text :=
  let pattern := withoutTrailingDot (toLowerCase value)
  if utf16Length pattern = 0 ∨ 253 < utf16Length pattern then none
  else if isMxPattern pattern then some pattern else none

/-- The turn of a `key: value` line; `none` is the early `return null`. -/
def policyField (acc : PolicyFields) (key value : Text) : Option PolicyFields :=
  if key = "mx".toList then
    (mxPattern toLowerCase value).map fun pattern => { acc with mx := acc.mx ++ [pattern] }
  else if key ∈ SINGLE_KEYS then
    if (acc.single key).isSome then none else some (acc.put key value)
  else some acc

/-- The turn of a line. -/
def policyTurn (acc : PolicyFields) (line : Text) : Option PolicyFields :=
  (policyLine line).elim (some acc) fun entry => policyField toLowerCase acc entry.1 entry.2

/-- What comes after the loop. -/
def readPolicy (found : PolicyFields) : Option MtaStsPolicy :=
  if found.single "version".toList ≠ some "STSv1".toList then none
  else ((found.single "mode".toList).bind modeOf).bind fun mode =>
    ((found.single "max_age".toList).filter isMaxAge).bind fun maxAge =>
      if mode ≠ .none ∧ found.mx = [] then none
      else some ⟨mode, found.mx.eraseDups, min (ofDecimal maxAge) MTA_STS_MAX_AGE_CAP_SECONDS⟩

/-- `parseMtaStsPolicy`. -/
def parseMtaStsPolicy (body : Text) : Option MtaStsPolicy :=
  if MTA_STS_POLICY_MAX_BYTES < utf8Length body then none
  else ((policyLines body).foldlM (policyTurn toLowerCase) ⟨fun _ => none, []⟩).bind readPolicy

end Parse

/-! ## Policies and files -/

/-- A policy that can be published. -/
structure MtaStsPolicy.Valid (policy : MtaStsPolicy) : Prop where
  patterns : ∀ pattern ∈ policy.mx, isMxPattern pattern = true ∧ pattern.length ≤ 253
  distinct : policy.mx.Nodup
  some_mx : policy.mode ≠ .none → policy.mx ≠ []
  maxAge : policy.maxAge ≤ MTA_STS_MAX_AGE_CAP_SECONDS

/-- The name of a mode. -/
def MtaStsMode.text : MtaStsMode → Text
  | .enforce => "enforce".toList
  | .testing => "testing".toList
  | .none => "none".toList

/-- The four fields. -/
def POLICY_KEYS : List Text := "mx".toList :: SINGLE_KEYS

/-- A line of a file: a field, with what stands around its value, or another line. -/
inductive FileLine where
  | field (key before value after : Text)
  | other (text : Text)

/-- The text of a line. -/
def FileLine.text : FileLine → Text
  | .field key before value after => key ++ ':' :: (before ++ (value ++ after))
  | .other text => text

/-- A field has spaces and tabs around its value; another line is one line, and none of the four fields. -/
def FileLine.Plain : FileLine → Prop
  | .field key before _ after =>
    key ∈ POLICY_KEYS ∧ (∀ c ∈ before, isWsp c = true) ∧ ∀ c ∈ after, isWsp c = true
  | .other text => '\n' ∉ text ∧ ∀ key ∈ POLICY_KEYS, ∀ rest, text ≠ key ++ ':' :: rest

/-- The value of a line with the key. -/
def FileLine.valueOf (key : Text) : FileLine → Option Text
  | .field k _ value _ => if k = key then some value else none
  | .other _ => none

/-- The values of a key. -/
def valuesOf (key : Text) (lines : List FileLine) : List Text := lines.filterMap (·.valueOf key)

/-- A pattern in any letter case, with or without a final dot. -/
def SpellsPattern (value pattern : Text) : Prop :=
  asciiLower value = pattern ∨ asciiLower value = pattern ++ ['.']

/-- The lines are the policy's fields, in any order, and others. -/
structure Writes (lines : List FileLine) (policy : MtaStsPolicy) : Prop where
  plain : ∀ line ∈ lines, line.Plain
  version : valuesOf "version".toList lines = ["STSv1".toList]
  mode : valuesOf "mode".toList lines = [policy.mode.text]
  maxAge : ∃ digits, valuesOf "max_age".toList lines = [digits] ∧ isMaxAge digits = true ∧
    ofDecimal digits = policy.maxAge
  mx : List.Forall₂ SpellsPattern (valuesOf "mx".toList lines) policy.mx

/-- A file: lines that end in `\r\n` or in `\n`, and a last one. -/
def fileText (lines : List (FileLine × Bool)) (last : FileLine) : Text :=
  lines.flatMap (fun line => line.1.text ++ if line.2 then ['\r', '\n'] else ['\n']) ++ last.text

/-! ## Patterns -/

/-- Printable, and no white space. -/
def Printable (s : Text) : Prop := ∀ c ∈ s, 0x21 ≤ c.toNat ∧ c.toNat ≤ 0x7e

section Patterns

variable {toLowerCase : Text → Text} {pattern value : Text}

theorem isLowerAlnum_toNat {c : Char} (h : isLowerAlnum c = true) :
    c.isAlphanum = true := by
  unfold isLowerAlnum at h
  unfold Char.isAlphanum Char.isAlpha
  rw [Bool.or_eq_true] at h
  rcases h with h | h <;> simp [h]

theorem isLabel_char {label : Text} (h : isLabel label = true) {c : Char} (hc : c ∈ label) :
    isLowerAlnum c = true ∨ c = '-' := by
  unfold isLabel at h
  rw [Bool.and_eq_true, Bool.and_eq_true, List.all_eq_true] at h
  have := h.1.2 c hc
  rwa [Bool.or_eq_true, decide_eq_true_iff] at this

theorem isLabel_ne_nil {label : Text} (h : isLabel label = true) : label ≠ [] := by
  rintro rfl
  exact absurd h (by decide)

/-- A host name after an optional `*.`. -/
theorem isMxPattern_cases (h : isMxPattern pattern = true) : ∃ head host, pattern = head ++ host ∧
    (head = [] ∨ head = "*.".toList) ∧ ∀ label ∈ host.splitOn '.', isLabel label = true := by
  unfold isMxPattern at h
  split at h
  · rename_i hprefix
    obtain ⟨host, rfl⟩ := List.isPrefixOf_iff_prefix.mp hprefix
    exact ⟨_, host, rfl, .inr rfl, List.all_eq_true.mp h⟩
  · exact ⟨[], pattern, rfl, .inl rfl, List.all_eq_true.mp h⟩

theorem isMxPattern_printable (h : isMxPattern pattern = true) : Printable pattern := by
  obtain ⟨head, host, rfl, hhead, hhost⟩ := isMxPattern_cases h
  intro c hc
  rcases List.mem_append.mp hc with hc | hc
  · rcases hhead with rfl | rfl
    · exact absurd hc List.not_mem_nil
    · fin_cases hc <;> decide
  · by_cases hdot : c = '.'
    · subst hdot
      decide
    · obtain ⟨label, hlabel, hc⟩ := Recipients.exists_mem_splitOn hc hdot
      rcases isLabel_char (hhost label hlabel) hc with h | rfl
      · have := isAlphanum_toNat (isLowerAlnum_toNat h)
        omega
      · decide

theorem isMxPattern_ne_nil (h : isMxPattern pattern = true) : pattern ≠ [] := by
  rintro rfl
  exact absurd h (by decide)

/-- A pattern does not end in a dot. -/
theorem isMxPattern_getLast? (h : isMxPattern pattern = true) : pattern.getLast? ≠ some '.' := by
  obtain ⟨head, host, rfl, hhead, hhost⟩ := isMxPattern_cases h
  intro hlast
  by_cases hnil : host = []
  · subst hnil
    exact isLabel_ne_nil (hhost [] (List.mem_singleton_self [])) rfl
  · rw [List.getLast?_append_of_ne_nil head hnil] at hlast
    obtain ⟨init, rfl⟩ := List.getLast?_eq_some_iff.mp hlast
    rw [List.splitOn_append_cons_self] at hhost
    exact isLabel_ne_nil (hhost [] (List.mem_append_right _ (List.mem_singleton_self []))) rfl

theorem withoutTrailingDot_concat (s : Text) : withoutTrailingDot (s ++ ['.']) = s := by
  unfold withoutTrailingDot
  rw [if_pos List.getLast?_concat, List.dropLast_concat]

/-- What is written of a pattern is printable. -/
theorem SpellsPattern.printable (h : SpellsPattern value pattern) (hp : isMxPattern pattern = true) :
    Printable value := by
  intro c hc
  have hlower : 0x21 ≤ c.toLower.toNat ∧ c.toLower.toNat ≤ 0x7e := by
    have hmem : c.toLower ∈ asciiLower value := List.mem_map_of_mem hc
    rcases h with h | h <;> rw [h] at hmem
    · exact isMxPattern_printable hp _ hmem
    · rcases List.mem_append.mp hmem with hmem | hmem
      · exact isMxPattern_printable hp _ hmem
      · rw [List.mem_singleton.mp hmem]
        decide
  by_cases halpha : c.isAlpha = true
  · have := isAlpha_toNat halpha
    omega
  · rwa [toLower_of_not_isAlpha (Bool.eq_false_iff.mpr halpha)] at hlower

theorem utf16Length_of_printable {s : Text} (h : Printable s) : utf16Length s = s.length := by
  unfold utf16Length
  induction s with
  | nil => rfl
  | cons c s ih =>
    have hc : c.toNat < 0x10000 := by have := (h c List.mem_cons_self).2; omega
    rw [List.map_cons, List.sum_cons, if_pos hc, ih fun d hd => h d (List.mem_cons_of_mem c hd),
      List.length_cons]
    omega

/-- **A pattern is read back.** -/
theorem mxPattern_of_spells (hlow : IsLowerCase toLowerCase) (h : SpellsPattern value pattern)
    (hp : isMxPattern pattern = true) (hlength : pattern.length ≤ 253) :
    mxPattern toLowerCase value = some pattern := by
  have hascii : toLowerCase value = asciiLower value := (hlow.lowers value).eq_map_toLower fun c hc => by
    have := (h.printable hp c hc).2
    omega
  have hpattern : withoutTrailingDot (toLowerCase value) = pattern := by
    rw [hascii]
    rcases h with h | h
    · rw [h]
      exact if_neg (isMxPattern_getLast? hp)
    · rw [h, withoutTrailingDot_concat]
  have hpos : 0 < pattern.length := List.length_pos_of_ne_nil (isMxPattern_ne_nil hp)
  unfold mxPattern
  dsimp only
  rw [hpattern, utf16Length_of_printable (isMxPattern_printable hp), if_neg (by omega), if_pos hp]

end Patterns

/-! ## Lines -/

section Lines

variable {toLowerCase : Text → Text} {key before value after text : Text} {lines : List (FileLine × Bool)}
  {last line : FileLine} {acc : PolicyFields}

theorem keyChar_of_mem (hkey : key ∈ POLICY_KEYS) : ∀ c ∈ key, isKeyChar c = true := by
  have hall : ∀ k ∈ POLICY_KEYS, k.all isKeyChar = true := by decide
  exact List.all_eq_true.mp (hall key hkey)

theorem length_of_mem (hkey : key ∈ POLICY_KEYS) : key ≠ [] ∧ key.length ≤ 32 := by
  have hall : ∀ k ∈ POLICY_KEYS, k ≠ [] ∧ k.length ≤ 32 := by decide
  exact hall key hkey

theorem wsp_toNat {c : Char} (h : isWsp c = true) : c.toNat = 0x20 ∨ c.toNat = 9 := by
  unfold isWsp at h
  simp only [Bool.or_eq_true, decide_eq_true_eq] at h
  rcases h with rfl | rfl
  · exact .inl rfl
  · exact .inr rfl

theorem isLineTerminator_of_toNat {c : Char} (h : c.toNat ≤ 0x7e) (hten : c.toNat ≠ 10)
    (hthirteen : c.toNat ≠ 13) : policyLine.isLineTerminator c = false := by
  have hne : ∀ {d : Char}, c.toNat ≠ d.toNat → c ≠ d := fun hd heq => hd (congrArg _ heq)
  have h2028 : '\u2028'.toNat = 0x2028 := rfl
  have h2029 : '\u2029'.toNat = 0x2029 := rfl
  unfold policyLine.isLineTerminator
  simp only [Bool.or_eq_false_iff, decide_eq_false_iff_not]
  exact ⟨⟨⟨hne hten, hne hthirteen⟩, hne (by omega)⟩, hne (by omega)⟩

/-- The characters after the colon of a field. -/
theorem field_char (hbefore : ∀ c ∈ before, isWsp c = true) (hvalue : Printable value)
    (hafter : ∀ c ∈ after, isWsp c = true) :
    ∀ c ∈ before ++ (value ++ after), c.toNat ≤ 0x7e ∧ c.toNat ≠ 10 ∧ c.toNat ≠ 13 := by
  intro c hc
  rcases List.mem_append.mp hc with hc | hc
  · have := wsp_toNat (hbefore c hc)
    omega
  · rcases List.mem_append.mp hc with hc | hc
    · have := hvalue c hc
      omega
    · have := wsp_toNat (hafter c hc)
      omega

/-- **A field is read.** -/
theorem policyLine_field (hkey : key ∈ POLICY_KEYS) (hbefore : ∀ c ∈ before, isWsp c = true)
    (hvalue : Printable value) (hafter : ∀ c ∈ after, isWsp c = true) :
    policyLine (FileLine.field key before value after).text = some (key, value) := by
  have htake : (key ++ ':' :: (before ++ (value ++ after))).takeWhile isKeyChar = key := by
    rw [List.takeWhile_append_of_pos (keyChar_of_mem hkey), List.takeWhile_cons_of_neg (by decide),
      List.append_nil]
  have hdrop : (key ++ ':' :: (before ++ (value ++ after))).dropWhile isKeyChar =
      ':' :: (before ++ (value ++ after)) := by
    rw [List.dropWhile_append_of_pos (keyChar_of_mem hkey), List.dropWhile_cons_of_neg (by decide)]
  have hterminators : (before ++ (value ++ after)).all (!policyLine.isLineTerminator ·) = true := by
    refine List.all_eq_true.mpr fun c hc => ?_
    obtain ⟨hhigh, hten, hthirteen⟩ := field_char hbefore hvalue hafter c hc
    rw [isLineTerminator_of_toNat hhigh hten hthirteen]
    rfl
  have hstrip : strip isWsp (before ++ (value ++ after)) = value := by
    refine strip_append hbefore (fun c hc => Bool.eq_false_iff.mpr fun hwsp => ?_) hafter
    have := wsp_toNat hwsp
    have := hvalue c hc
    omega
  unfold policyLine
  dsimp only [FileLine.text]
  rw [htake, hdrop, if_pos ⟨(length_of_mem hkey).1, (length_of_mem hkey).2, rfl, hterminators⟩]
  exact congrArg (fun v => some (key, v)) hstrip

/-- A line that is read has its key before a colon. -/
theorem policyLine_eq_some {entry : Text × Text} (h : policyLine text = some entry) :
    ∃ rest, text = entry.1 ++ ':' :: rest := by
  unfold policyLine at h
  dsimp only at h
  split at h
  · rename_i hc
    cases h
    obtain ⟨rest, hrest⟩ := List.head?_eq_some_iff.mp hc.2.2.1
    exact ⟨rest, (List.takeWhile_append_dropWhile.symm.trans (congrArg _ hrest))⟩
  · cases h

theorem dropCr_cases (text : Text) : dropCr text = text ∨ text = dropCr text ++ ['\r'] := by
  unfold dropCr
  split
  · rename_i h
    obtain ⟨init, rfl⟩ := List.getLast?_eq_some_iff.mp h
    exact .inr (by rw [List.dropLast_concat])
  · exact .inl rfl

theorem dropCr_concat (text : Text) : dropCr (text ++ ['\r']) = text := by
  unfold dropCr
  rw [if_pos List.getLast?_concat, List.dropLast_concat]

theorem dropCr_of_notMem (h : '\r' ∉ text) : dropCr text = text :=
  if_neg fun hlast => h (List.mem_of_getLast? hlast)

/-- What a line says, to the loop. -/
def lineTurn (toLowerCase : Text → Text) (acc : PolicyFields) : FileLine → Option PolicyFields
  | .field key _ value _ => policyField toLowerCase acc key value
  | .other _ => some acc

theorem policyField_of_notMem (h : key ∉ POLICY_KEYS) :
    policyField toLowerCase acc key value = some acc := by
  have hmx : key ≠ "mx".toList := fun hmx => h (hmx ▸ List.mem_cons_self)
  have hsingle : key ∉ SINGLE_KEYS := fun hs => h (List.mem_cons_of_mem _ hs)
  unfold policyField
  rw [if_neg hmx, if_neg hsingle]

theorem policyTurn_other {line : Text} (h : ∀ key ∈ POLICY_KEYS, ∀ rest, line ≠ key ++ ':' :: rest) :
    policyTurn toLowerCase acc line = some acc := by
  unfold policyTurn
  cases hread : policyLine line with
  | none => rfl
  | some entry =>
    obtain ⟨rest, hrest⟩ := policyLine_eq_some hread
    exact policyField_of_notMem fun hkey => h _ hkey rest hrest

/-- A line whose value, if it has one, is printable. -/
def FileLine.PrintableValue : FileLine → Prop
  | .field _ _ value _ => Printable value
  | .other _ => True

theorem field_notMem (hkey : key ∈ POLICY_KEYS) (hbefore : ∀ c ∈ before, isWsp c = true)
    (hvalue : Printable value) (hafter : ∀ c ∈ after, isWsp c = true) {d : Char}
    (hd : d.toNat = 10 ∨ d.toNat = 13) : d ∉ (FileLine.field key before value after).text := by
  intro hmem
  rcases List.mem_append.mp hmem with hmem | hmem
  · have hchar := keyChar_of_mem hkey d hmem
    rcases hd with hd | hd <;> rw [← Char.ofNat_toNat d, hd] at hchar <;> exact absurd hchar (by decide)
  · rcases List.mem_cons.mp hmem with rfl | hmem
    · revert hd
      decide
    · have := field_char hbefore hvalue hafter d hmem
      omega

theorem newline_notMem (hplain : line.Plain) (hvalue : line.PrintableValue) : '\n' ∉ line.text := by
  cases line with
  | field key before value after =>
    exact field_notMem hplain.1 hplain.2.1 hvalue hplain.2.2 (.inl rfl)
  | other text => exact hplain.1

/-- **One line, whatever its end.** -/
theorem policyTurn_line (hplain : line.Plain) (hvalue : line.PrintableValue) (crlf : Bool) :
    policyTurn toLowerCase acc (dropCr (line.text ++ if crlf then ['\r'] else [])) =
      lineTurn toLowerCase acc line := by
  cases line with
  | field key before value after =>
    have htext : dropCr ((FileLine.field key before value after).text ++ if crlf then ['\r'] else []) =
        (FileLine.field key before value after).text := by
      cases crlf with
      | true => exact dropCr_concat _
      | false =>
        have hfree := field_notMem hplain.1 hplain.2.1 hvalue hplain.2.2 (d := '\r') (.inr rfl)
        exact (congrArg dropCr (List.append_nil _)).trans (dropCr_of_notMem hfree)
    rw [htext]
    unfold policyTurn
    rw [policyLine_field hplain.1 hplain.2.1 hvalue hplain.2.2]
    rfl
  | other text =>
    refine policyTurn_other fun key hkey rest heq => ?_
    cases crlf with
    | true => exact hplain.2 key hkey rest ((dropCr_concat text).symm.trans heq)
    | false =>
      replace heq : dropCr text = key ++ ':' :: rest :=
        (congrArg dropCr (List.append_nil text)).symm.trans heq
      rcases dropCr_cases text with hsame | hcut
      · exact hplain.2 key hkey rest (hsame.symm.trans heq)
      · refine hplain.2 key hkey (rest ++ ['\r']) (hcut.trans ?_)
        rw [heq, List.append_assoc]
        rfl

theorem policyTurn_last (hplain : line.Plain) (hvalue : line.PrintableValue) :
    policyTurn toLowerCase acc line.text = lineTurn toLowerCase acc line := by
  cases line with
  | field key before value after =>
    unfold policyTurn
    rw [policyLine_field hplain.1 hplain.2.1 hvalue hplain.2.2]
    rfl
  | other text => exact policyTurn_other hplain.2

/-- The loop over the lines of a file. -/
theorem foldlM_policyTurn (h : ∀ line ∈ lines, line.1.Plain ∧ line.1.PrintableValue)
    (hlast : last.Plain ∧ last.PrintableValue) :
    (lines.map (fun line => dropCr (line.1.text ++ if line.2 then ['\r'] else [])) ++ [last.text]).foldlM
      (policyTurn toLowerCase) acc =
    (lines.map Prod.fst ++ [last]).foldlM (lineTurn toLowerCase) acc := by
  induction lines generalizing acc with
  | nil => exact congrArg (· >>= _) (policyTurn_last hlast.1 hlast.2)
  | cons line lines ih =>
    obtain ⟨hplain, hvalue⟩ := h line List.mem_cons_self
    rw [List.map_cons, List.map_cons, List.cons_append, List.cons_append, List.foldlM_cons,
      List.foldlM_cons, policyTurn_line hplain hvalue]
    exact bind_congr fun acc => ih fun line hl => h line (List.mem_cons_of_mem _ hl)

/-- **The lines of a file.** -/
theorem policyLines_fileText (h : ∀ line ∈ lines, '\n' ∉ line.1.text) (hlast : '\n' ∉ last.text) :
    policyLines (fileText lines last) =
      lines.map (fun line => dropCr (line.1.text ++ if line.2 then ['\r'] else [])) ++ [last.text] := by
  have hsplit : (fileText lines last).splitOn '\n' =
      lines.map (fun line => line.1.text ++ if line.2 then ['\r'] else []) ++ [last.text] := by
    unfold fileText
    induction lines with
    | nil => exact List.splitOn_eq_singleton hlast
    | cons line lines ih =>
      have hfree : '\n' ∉ line.1.text ++ if line.2 then ['\r'] else [] := by
        intro hmem
        rcases List.mem_append.mp hmem with hmem | hmem
        · exact h line List.mem_cons_self hmem
        · split at hmem <;> exact absurd hmem (by decide)
      have htext : line.1.text ++ (if line.2 then ['\r', '\n'] else ['\n']) =
          (line.1.text ++ if line.2 then ['\r'] else []) ++ ['\n'] := by
        cases line.2 <;> simp
      rw [List.flatMap_cons, htext, List.append_assoc, List.append_assoc, List.singleton_append,
        List.splitOn_append_cons_self_of_not_mem hfree,
        ih fun line hl => h line (List.mem_cons_of_mem _ hl)]
      rfl
  unfold policyLines
  rw [hsplit, List.dropLast_concat, List.getLast?_concat, List.map_map]
  rfl

end Lines

/-! ## The loop -/

section Loop

variable {toLowerCase : Text → Text} {key value : Text} {lines : List FileLine} {line : FileLine}
  {policy : MtaStsPolicy} {patterns : List Text} {acc : PolicyFields}

theorem valuesOf_cons (key : Text) (line : FileLine) (lines : List FileLine) :
    valuesOf key (line :: lines) = (line.valueOf key).toList ++ valuesOf key lines := by
  unfold valuesOf
  rw [List.filterMap_cons]
  cases line.valueOf key <;> rfl

theorem valuesOf_field_self {before after : Text} :
    valuesOf key (.field key before value after :: lines) = value :: valuesOf key lines := by
  rw [valuesOf_cons]
  exact congrArg (Option.toList · ++ _) (if_pos rfl)

theorem valuesOf_field_ne {k before after : Text} (h : k ≠ key) :
    valuesOf key (.field k before value after :: lines) = valuesOf key lines := by
  rw [valuesOf_cons]
  exact congrArg (Option.toList · ++ _) (if_neg h)

theorem mem_valuesOf {before after : Text} (h : .field key before value after ∈ lines) :
    value ∈ valuesOf key lines :=
  List.mem_filterMap.mpr ⟨_, h, if_pos rfl⟩

theorem PolicyFields.put_self : (acc.put key value).single key = some value :=
  Function.update_self ..

theorem PolicyFields.put_of_ne {k : Text} (h : k ≠ key) :
    (acc.put key value).single k = acc.single k :=
  Function.update_of_ne h ..

/-- **The loop.** Every single field stands at most once, and every `mx` is read as its pattern. -/
theorem foldlM_lineTurn (acc : PolicyFields) (hkeys : ∀ line ∈ lines, line.Plain)
    (hmx : List.Forall₂ (fun value pattern => mxPattern toLowerCase value = some pattern)
      (valuesOf "mx".toList lines) patterns)
    (hsingle : ∀ key ∈ SINGLE_KEYS, ((acc.single key).toList ++ valuesOf key lines).length ≤ 1) :
    ∃ found, lines.foldlM (lineTurn toLowerCase) acc = some found ∧ found.mx = acc.mx ++ patterns ∧
      ∀ key ∈ SINGLE_KEYS, (found.single key).toList = (acc.single key).toList ++ valuesOf key lines := by
  induction lines generalizing acc patterns with
  | nil =>
    cases hmx
    exact ⟨acc, rfl, (List.append_nil _).symm, fun _ _ => (List.append_nil _).symm⟩
  | cons line lines ih =>
    have hrest : ∀ line ∈ lines, line.Plain := fun line h => hkeys line (List.mem_cons_of_mem _ h)
    cases line with
    | other text => exact ih acc hrest hmx hsingle
    | field key before value after =>
      rcases List.mem_cons.mp (hkeys _ List.mem_cons_self).1 with rfl | hkey
      · rw [valuesOf_field_self] at hmx
        cases hmx with
        | @cons _ pattern _ patterns hpattern hmx =>
          have hfree : ∀ k ∈ SINGLE_KEYS, "mx".toList ≠ k := by decide
          have hturn : lineTurn toLowerCase acc (.field "mx".toList before value after) =
              some { acc with mx := acc.mx ++ [pattern] } := by
            show (mxPattern toLowerCase value).map _ = _
            rw [hpattern]
            rfl
          obtain ⟨found, hfold, hfoundMx, hfound⟩ := ih { acc with mx := acc.mx ++ [pattern] }
            hrest hmx fun k hk => by
              have := hsingle k hk
              rwa [valuesOf_field_ne (hfree k hk)] at this
          refine ⟨found, ?_, ?_, fun k hk => ?_⟩
          · rw [List.foldlM_cons, hturn]
            exact hfold
          · rw [hfoundMx, List.append_assoc]
            rfl
          · rw [valuesOf_field_ne (hfree k hk)]
            exact hfound k hk
      · have hkeyMx : key ≠ "mx".toList := fun h => absurd (h ▸ hkey) (by decide)
        rw [valuesOf_field_ne hkeyMx] at hmx
        have hone := hsingle key hkey
        rw [valuesOf_field_self, List.length_append, List.length_cons] at hone
        have hnone : acc.single key = none := by
          cases hs : acc.single key with
          | none => rfl
          | some v => rw [hs, Option.toList_some, List.length_singleton] at hone; omega
        have hlast : valuesOf key lines = [] := List.length_eq_zero_iff.mp (by omega)
        have hturn : lineTurn toLowerCase acc (.field key before value after) =
            some (acc.put key value) := by
          show policyField toLowerCase acc key value = _
          unfold policyField
          rw [if_neg hkeyMx, if_pos hkey, hnone]
          rfl
        obtain ⟨found, hfold, hfoundMx, hfound⟩ := ih (acc.put key value) hrest hmx
          fun k hk => by
            by_cases h : k = key
            · rw [h, PolicyFields.put_self, hlast]
              exact le_rfl
            · have := hsingle k hk
              rw [valuesOf_field_ne (Ne.symm h)] at this
              rwa [PolicyFields.put_of_ne h]
        refine ⟨found, ?_, hfoundMx, fun k hk => ?_⟩
        · rw [List.foldlM_cons, hturn]
          exact hfold
        · rw [hfound k hk]
          by_cases h : k = key
          · rw [h, valuesOf_field_self, PolicyFields.put_self, hnone]
            rfl
          · rw [valuesOf_field_ne (Ne.symm h), PolicyFields.put_of_ne h]

theorem forall₂_mxPattern (hlow : IsLowerCase toLowerCase) {values : List Text}
    (hvalid : ∀ pattern ∈ patterns, isMxPattern pattern = true ∧ pattern.length ≤ 253)
    (h : List.Forall₂ SpellsPattern values patterns) :
    List.Forall₂ (fun value pattern => mxPattern toLowerCase value = some pattern) values patterns := by
  induction h with
  | nil => exact .nil
  | cons hspells _ ih =>
    obtain ⟨hpattern, hlength⟩ := hvalid _ List.mem_cons_self
    exact .cons (mxPattern_of_spells hlow hspells hpattern hlength)
      (ih fun pattern hmem => hvalid pattern (List.mem_cons_of_mem _ hmem))

theorem exists_spelled {values : List Text} (h : List.Forall₂ SpellsPattern values patterns)
    (hvalue : value ∈ values) : ∃ pattern ∈ patterns, SpellsPattern value pattern := by
  induction h with
  | nil => exact absurd hvalue List.not_mem_nil
  | cons hspells _ ih =>
    rcases List.mem_cons.mp hvalue with rfl | hvalue
    · exact ⟨_, List.mem_cons_self, hspells⟩
    · obtain ⟨pattern, hmem, h⟩ := ih hvalue
      exact ⟨pattern, List.mem_cons_of_mem _ hmem, h⟩

theorem eraseDups_of_nodup {l : List Text} (h : l.Nodup) : l.eraseDups = l := by
  induction l with
  | nil => rfl
  | cons a l ih =>
    obtain ⟨hnotMem, hl⟩ := List.nodup_cons.mp h
    rw [List.eraseDups_cons, List.filter_eq_self.mpr fun b hb => ?_, ih hl]
    simp only [Bool.not_eq_true', beq_eq_false_iff_ne]
    exact fun heq => hnotMem (heq ▸ hb)

theorem modeOf_text (mode : MtaStsMode) : modeOf mode.text = some mode := by
  cases mode <;> rfl

theorem isMaxAge_printable (h : isMaxAge value = true) : Printable value := fun c hc => by
  unfold isMaxAge at h
  rw [Bool.and_eq_true, Bool.and_eq_true, List.all_eq_true] at h
  have := isAlphanum_toNat (c := c) (by rw [Char.isAlphanum, h.1.1 c hc, Bool.or_true])
  omega

/-- **What comes after the loop.** -/
theorem readPolicy_of_found {found : PolicyFields} {digits : Text} (hvalid : policy.Valid)
    (hversion : found.single "version".toList = some "STSv1".toList)
    (hmode : found.single "mode".toList = some policy.mode.text)
    (hage : found.single "max_age".toList = some digits) (hdigits : isMaxAge digits = true)
    (hvalue : ofDecimal digits = policy.maxAge) (hmx : found.mx = policy.mx) :
    readPolicy found = some policy := by
  have hsome : ¬(policy.mode ≠ .none ∧ found.mx = []) := fun h => hvalid.some_mx h.1 (hmx ▸ h.2)
  unfold readPolicy
  rw [if_neg (fun h => h hversion), hmode, hage, Option.bind_some, modeOf_text, Option.bind_some,
    Option.filter_some, if_pos hdigits, Option.bind_some, if_neg hsome, hmx,
    eraseDups_of_nodup hvalid.distinct, hvalue, Nat.min_eq_left hvalid.maxAge]

/-- The values of the fields are printable. -/
theorem Writes.printable (h : Writes lines policy) (hvalid : policy.Valid) (hline : line ∈ lines) :
    line.PrintableValue := by
  cases line with
  | other text => trivial
  | field key before value after =>
    have hvalue := mem_valuesOf hline
    have hplain := h.plain _ hline
    rcases List.mem_cons.mp hplain.1 with rfl | hkey
    · obtain ⟨pattern, hpattern, hspells⟩ := exists_spelled h.mx hvalue
      exact hspells.printable (hvalid.patterns pattern hpattern).1
    · obtain ⟨digits, hage, hdigits, _⟩ := h.maxAge
      have hcases : key = "version".toList ∨ key = "mode".toList ∨ key = "max_age".toList := by
        simpa [SINGLE_KEYS] using hkey
      rcases hcases with rfl | rfl | rfl
      · rw [h.version] at hvalue
        rw [List.mem_singleton.mp hvalue]
        show Printable "STSv1".toList
        simp [Printable]
      · rw [h.mode] at hvalue
        rw [List.mem_singleton.mp hvalue]
        show Printable policy.mode.text
        cases policy.mode <;> simp [Printable, MtaStsMode.text]
      · rw [hage] at hvalue
        rw [List.mem_singleton.mp hvalue]
        exact isMaxAge_printable hdigits

end Loop

section Main

variable {toLowerCase : Text → Text} {policy : MtaStsPolicy} {lines : List (FileLine × Bool)}
  {last : FileLine}

/-- **The policy file.** A file of at most 64 KB that writes a policy is read as that policy. -/
theorem parseMtaStsPolicy_of_writes (hlow : IsLowerCase toLowerCase) (hvalid : policy.Valid)
    (h : Writes (lines.map Prod.fst ++ [last]) policy)
    (hsize : utf8Length (fileText lines last) ≤ MTA_STS_POLICY_MAX_BYTES) :
    parseMtaStsPolicy toLowerCase (fileText lines last) = some policy := by
  have hline : ∀ line ∈ lines, line.1.Plain ∧ line.1.PrintableValue := fun line hl => by
    have hmem := List.mem_append_left [last] (List.mem_map_of_mem (f := Prod.fst) hl)
    exact ⟨h.plain _ hmem, h.printable hvalid hmem⟩
  have hlast : last.Plain ∧ last.PrintableValue := by
    have hmem := List.mem_append_right (lines.map Prod.fst) (List.mem_singleton_self last)
    exact ⟨h.plain _ hmem, h.printable hvalid hmem⟩
  have hlines := policyLines_fileText
    (fun line hl => newline_notMem (hline line hl).1 (hline line hl).2) (newline_notMem hlast.1 hlast.2)
  obtain ⟨digits, hage, hdigits, hvalue⟩ := h.maxAge
  have hpatterns := forall₂_mxPattern hlow hvalid.patterns h.mx
  obtain ⟨found, hfold, hfoundMx, hfound⟩ := foldlM_lineTurn ⟨fun _ => none, []⟩ h.plain
    hpatterns fun key hkey => by
      have hcases : key = "version".toList ∨ key = "mode".toList ∨ key = "max_age".toList := by
        simpa [SINGLE_KEYS] using hkey
      rcases hcases with rfl | rfl | rfl
      · rw [h.version]; exact le_rfl
      · rw [h.mode]; exact le_rfl
      · rw [hage]; exact le_rfl
  have hsingle : ∀ {key value : Text}, key ∈ SINGLE_KEYS →
      valuesOf key (lines.map Prod.fst ++ [last]) = [value] → found.single key = some value :=
    fun hkey hvalues => toList_inj ((hfound _ hkey).trans hvalues)
  unfold parseMtaStsPolicy
  rw [if_neg (not_lt.mpr hsize), hlines, foldlM_policyTurn hline hlast, hfold, Option.bind_some]
  exact readPolicy_of_found hvalid (hsingle (by decide) h.version) (hsingle (by decide) h.mode)
    (hsingle (by decide) hage) hdigits hvalue hfoundMx

/-- **MTA-STS records and policies.** The TXT reader returns an id exactly when one joined record starts with
`v=STSv1` and that record is derivable with one `id` field, where the white space around the fields, also
after the last, is any that `trim` removes; so every record of the RFC's grammar is read.  A file of at most
64 KB that writes a policy is read as that policy. -/
theorem mtaSts_read (hlow : IsLowerCase toLowerCase) :
    (∀ records id, parseMtaStsTxt records = some id ↔ ∃ text fields, stsCandidates records = [text] ∧
      StsTextRecord isSpace isSpace text fields ∧ idsOf fields = [id]) ∧
    (∀ records id text fields, stsCandidates records = [text] → StsTextRecord isWsp nothing text fields →
      idsOf fields = [id] → parseMtaStsTxt records = some id) ∧
    ∀ policy lines last, MtaStsPolicy.Valid policy → Writes (lines.map Prod.fst ++ [last]) policy →
      utf8Length (fileText lines last) ≤ MTA_STS_POLICY_MAX_BYTES →
      parseMtaStsPolicy toLowerCase (fileText lines last) = some policy := by
  refine ⟨parseMtaStsTxt_iff, fun records id text fields hone hrecord hid => ?_,
    fun policy lines last hvalid hwrites hsize => parseMtaStsPolicy_of_writes hlow hvalid hwrites hsize⟩
  obtain ⟨rest, htext, hfields⟩ := hrecord
  have hspace : ∀ c, isWsp c = true → isSpace c = true := fun c hc => by
    have := wsp_toNat hc
    unfold isSpace
    simp only [Bool.or_eq_true, Bool.and_eq_true, decide_eq_true_eq, beq_iff_eq]
    omega
  exact (parseMtaStsTxt_iff records id).mpr
    ⟨text, fields, hone, ⟨rest, htext, hfields.mono hspace fun _ h => absurd h Bool.false_ne_true⟩, hid⟩

end Main

/-! ## Runs -/

/-- A policy with two patterns. -/
def twoPatterns : MtaStsPolicy :=
  ⟨.enforce, ["mx.a.example".toList, "*.b.example".toList], 86400⟩

/-- Its file, out of order, with a comment. -/
def twoPatternsLines : List (FileLine × Bool) :=
  [(.field "max_age".toList [] "086400".toList ['\t'], true),
    (.field "mx".toList [' '] "MX.a.Example.".toList [], false),
    (.other "# generated".toList, false),
    (.field "version".toList [' '] "STSv1".toList [' '], true),
    (.field "mode".toList [' '] "enforce".toList [], true),
    (.field "mx".toList [' ', ' '] "*.b.example".toList [], true)]

theorem twoPatterns_valid : twoPatterns.Valid where
  patterns := by decide +kernel
  distinct := by decide
  some_mx _ := List.cons_ne_nil _ _
  maxAge := by decide

theorem twoPatterns_writes (text : Text) (hline : '\n' ∉ text) (hcolon : ':' ∉ text) :
    Writes (twoPatternsLines.map Prod.fst ++ [.other text]) twoPatterns where
  plain line hmem := by
    have hother : ∀ {t : Text}, ':' ∉ t → ∀ key ∈ POLICY_KEYS, ∀ rest, t ≠ key ++ ':' :: rest :=
      fun ht key _ rest heq => ht (by rw [heq]; simp)
    unfold twoPatternsLines at hmem
    simp only [List.map_cons, List.map_nil, List.cons_append, List.nil_append, List.mem_cons,
      List.not_mem_nil, or_false] at hmem
    rcases hmem with rfl | rfl | rfl | rfl | rfl | rfl | rfl
    · exact ⟨by decide, by simp [isWsp], by simp [isWsp]⟩
    · exact ⟨by decide, by simp [isWsp], by simp [isWsp]⟩
    · exact ⟨by decide, hother (by decide +kernel)⟩
    · exact ⟨by decide, by simp [isWsp], by simp [isWsp]⟩
    · exact ⟨by decide, by simp [isWsp], by simp [isWsp]⟩
    · exact ⟨by decide, by simp [isWsp], by simp [isWsp]⟩
    · exact ⟨hline, hother hcolon⟩
  version := rfl
  mode := rfl
  maxAge := ⟨"086400".toList, rfl, by decide +kernel, by decide +kernel⟩
  mx := .cons (.inr (by decide +kernel)) (.cons (.inl (by decide +kernel)) .nil)

/-- A record with an extension, and the file. -/
theorem mtaSts_read_twoPatterns :
    parseMtaStsTxt [["v=spf1 -all".toList], ["v=STSv1; ".toList, "id=a1;\tx=y ;".toList]] = some "a1".toList ∧
    parseMtaStsPolicy asciiLower (fileText twoPatternsLines (.other [])) = some twoPatterns := by
  have hread := mtaSts_read isLowerCase_asciiLower
  refine ⟨(hread.1 _ _).mpr ⟨"v=STSv1; id=a1;\tx=y ;".toList, [("id".toList, "a1".toList),
    ("x".toList, "y".toList)], by decide +kernel, ⟨"; id=a1;\tx=y ;".toList, rfl, ?_⟩, by decide +kernel⟩,
    hread.2.2 _ _ _ twoPatterns_valid (twoPatterns_writes [] List.not_mem_nil List.not_mem_nil)
      (by decide +kernel)⟩
  have hid : StsField ("id=".toList ++ "a1".toList) ("id".toList, "a1".toList) :=
    .id (by decide) (by decide) (by simp)
  have hextension : StsField (['x'] ++ '=' :: ['y']) (['x'], ['y']) :=
    .extension (by decide) (by decide) (by decide) nofun (by decide) (by simp)
  exact .field (d := [';', ' ']) ⟨[], [' '], rfl, nofun, by simp [isSpace]⟩ hid
    (.field (d := [';', '\t']) ⟨[], ['\t'], rfl, nofun, by simp [isSpace]⟩ hextension
      (.delimiter ⟨[' '], [], rfl, by simp [isSpace], nofun⟩))

/-! ## Outside the grammar -/

section Outside

variable {s : Text} {fields : List (Text × Text)}

/-- A field ends in a character that is no white space. -/
theorem StsField.last {f : Text} {nv : Text × Text} (h : StsField f nv) :
    ∃ u c, f = u ++ [c] ∧ 0x21 ≤ c.toNat := by
  have hne := h.ne_nil
  have hlast : f.getLast hne ∈ f := List.getLast_mem hne
  exact ⟨f.dropLast, f.getLast hne, (List.dropLast_append_getLast hne).symm, (h.char hlast).1⟩

/-- In the RFC's grammar, what ends in white space ends in a delimiter. -/
theorem StsFields.last (h : StsFields isWsp nothing s fields) : s = [] ∨
    (∃ u b, s = u ++ ';' :: b ∧ ∀ c ∈ b, isWsp c = true) ∨ ∃ u c, s = u ++ [c] ∧ 0x21 ≤ c.toNat := by
  induction h with
  | @ending s h =>
    cases s with
    | nil => exact .inl rfl
    | cons c s => exact absurd (h c List.mem_cons_self) Bool.false_ne_true
  | delimiter h =>
    obtain ⟨a, b, rfl, -, hb⟩ := h
    exact .inr (.inl ⟨a, b, rfl, hb⟩)
  | @field d f rest nv fields _ hf _ ih =>
    rcases ih with rfl | ⟨u, b, rfl, hb⟩ | ⟨u, c, rfl, hc⟩
    · obtain ⟨u, c, rfl, hc⟩ := hf.last
      exact .inr (.inr ⟨d ++ u, c, by simp, hc⟩)
    · exact .inr (.inl ⟨d ++ (f ++ u), b, by simp, hb⟩)
    · exact .inr (.inr ⟨d ++ (f ++ u), c, by simp, hc⟩)

/-- The characters of the RFC's grammar. -/
theorem StsFields.char (h : StsFields isWsp nothing s fields) : ∀ c ∈ s, c.toNat ≤ 0x7e := by
  have hwsp : ∀ {c : Char}, isWsp c = true → c.toNat ≤ 0x7e := fun hc => by
    have := wsp_toNat hc
    omega
  have hdelimiter : ∀ {d}, IsDelimiter isWsp d → ∀ c ∈ d, c.toNat ≤ 0x7e := by
    rintro _ ⟨a, b, rfl, ha, hb⟩ c hc
    rcases List.mem_append.mp hc with hc | hc
    · exact hwsp (ha c hc)
    · rcases List.mem_cons.mp hc with rfl | hc
      · decide
      · exact hwsp (hb c hc)
  induction h with
  | ending h => exact fun c hc => absurd (h c hc) Bool.false_ne_true
  | delimiter h => exact hdelimiter h
  | field hd hf _ ih =>
    intro c hc
    rcases List.mem_append.mp hc with hc | hc
    · exact hdelimiter hd c hc
    · rcases List.mem_append.mp hc with hc | hc
      · exact (hf.char hc).2.1
      · exact ih c hc

theorem length_le_utf8Length (s : Text) : s.length ≤ utf8Length s := by
  unfold utf8Length
  induction s with
  | nil => exact le_rfl
  | cons c s ih =>
    have := Char.utf8Size_pos c
    rw [List.length_cons, List.map_cons, List.sum_cons]
    omega

end Outside

/-- A long comment at the end. -/
def longLine : FileLine := .other (List.replicate MTA_STS_POLICY_MAX_BYTES '#')

/-- A space at the end of a record and a no-break space in it are outside the grammar of the RFC, and both
records are read; the file of a policy is not read when it is larger than 64 KB. -/
theorem not_mtaSts_read :
    (parseMtaStsTxt [["v=STSv1; id=a ".toList]] = some "a".toList ∧
      ¬∃ fields, StsTextRecord isWsp nothing "v=STSv1; id=a ".toList fields) ∧
    (parseMtaStsTxt [["v=STSv1;\u00a0id=a".toList]] = some "a".toList ∧
      ¬∃ fields, StsTextRecord isWsp nothing "v=STSv1;\u00a0id=a".toList fields) ∧
    twoPatterns.Valid ∧ Writes (twoPatternsLines.map Prod.fst ++ [longLine]) twoPatterns ∧
      parseMtaStsPolicy asciiLower (fileText twoPatternsLines longLine) = none := by
  refine ⟨⟨by decide +kernel, ?_⟩, ⟨by decide +kernel, ?_⟩, twoPatterns_valid,
    twoPatterns_writes _ ?_ ?_, if_pos ?_⟩
  · rintro ⟨fields, rest, htext, h⟩
    have happend : "v=STSv1".toList ++ "; id=a ".toList = "v=STSv1".toList ++ rest := htext
    have hrest : rest = "; id=a ".toList := (List.append_cancel_left happend).symm
    rcases h.last with hnil | ⟨u, b, hb, hwsp⟩ | ⟨u, c, hc, hlow⟩
    · rw [hrest] at hnil
      cases hnil
    · rw [hrest] at hb
      cases u with
      | nil =>
        have htail : " id=a ".toList = b := (List.cons.inj hb).2
        have hmem : 'i' ∈ " id=a ".toList := by decide
        exact absurd (hwsp 'i' (htail ▸ hmem)) (by decide)
      | cons x u =>
        have htail : " id=a ".toList = u ++ ';' :: b := (List.cons.inj hb).2
        have hmem : ';' ∈ u ++ ';' :: b := List.mem_append_right u List.mem_cons_self
        exact absurd (htail ▸ hmem : ';' ∈ " id=a ".toList) (by decide)
    · rw [hrest] at hc
      have hlast := congrArg List.getLast? hc
      rw [List.getLast?_concat] at hlast
      cases hlast
      exact absurd hlow (by decide)
  · rintro ⟨fields, rest, htext, h⟩
    have happend : "v=STSv1".toList ++ ";\u00a0id=a".toList = "v=STSv1".toList ++ rest := htext
    have hrest : rest = ";\u00a0id=a".toList := (List.append_cancel_left happend).symm
    have hmem : '\u00a0' ∈ rest := by rw [hrest]; simp
    exact absurd (h.char _ hmem) (by decide)
  · exact fun h => absurd (List.eq_of_mem_replicate h) (by decide)
  · exact fun h => absurd (List.eq_of_mem_replicate h) (by decide)
  · refine lt_of_lt_of_le ?_ (length_le_utf8Length _)
    show _ < (_ ++ List.replicate MTA_STS_POLICY_MAX_BYTES '#').length
    rw [List.length_append, List.length_replicate]
    have hpos : 0 < (twoPatternsLines.flatMap fun line =>
        line.1.text ++ if line.2 then ['\r', '\n'] else ['\n']).length := by decide +kernel
    omega

end BunMail.Emails
