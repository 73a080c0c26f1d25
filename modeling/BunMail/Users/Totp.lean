import BunMail.Lib.Fields
import BunMail.Users.Base32

/-!
# One-time passwords and recovery codes

`totp.service.ts` and `recovery-code.service.ts`: the codes of the time steps, the step a submitted
code belongs to, and the recovery codes as they are shown and as they are typed in.  The HMAC and the
upper case of a string are parameters.  The clock is exact below 2^50 ms, where the two divisions of
`totpStep` round to the step.
-/

namespace BunMail.Users.Totp

open CodeUnits Base32

def TOTP_DIGITS : ℕ := 6

def TOTP_STEP_SECONDS : ℕ := 30

def TOTP_WINDOW_STEPS : ℕ := 1

def RECOVERY_CODE_COUNT : ℕ := 10

def RECOVERY_CODE_BYTES : ℕ := 10

/-- What `\s` matches. -/
def isSpace (u : UInt16) : Bool :=
  (0x09 ≤ u && u ≤ 0x0d) || u == 0x20 || u == 0xa0 || u == 0x1680 || (0x2000 ≤ u && u ≤ 0x200a) ||
    u == 0x2028 || u == 0x2029 || u == 0x202f || u == 0x205f || u == 0x3000 || u == 0xfeff

/-! ## Codes of the time steps -/

/-- `createHmac("sha1", key).update(message).digest()`. -/
abbrev HmacSha1 := List (BitVec 8) → List (BitVec 8) → Vector (BitVec 8) 20

/-- `message.writeBigUInt64BE(BigInt(counter))`. -/
def counterBytes (counter : ℕ) : List (BitVec 8) :=
  (List.range 8).map fun i => BitVec.ofNat 8 (counter / 256 ^ (7 - i))

/-- `mac.readUInt32BE(offset)`. -/
def readUInt32BE (mac : Vector (BitVec 8) 20) (offset : ℕ) : BitVec 32 :=
  let byte := fun i => mac.toList.getD (offset + i) 0#8
  byte 0 ++ byte 1 ++ byte 2 ++ byte 3

/-- `String(value).padStart(digits, "0")`. -/
def padStart (digits value : ℕ) : CodeUnits :=
  let shown := (Text.decimal value).map fun c => UInt16.ofNat c.toNat
  List.replicate (digits - shown.length) 0x30 ++ shown

variable (hmac : HmacSha1) (toUpperCase : CodeUnits → CodeUnits)

def hotp (key : List (BitVec 8)) (counter : ℕ) : CodeUnits :=
  let mac := hmac key (counterBytes counter)
  let offset := (mac[19] &&& 0x0f#8).toNat
  let binary := readUInt32BE mac offset &&& 0x7fffffff#32
  padStart TOTP_DIGITS (binary.toNat % 10 ^ TOTP_DIGITS)

def totpStep (nowMs : Time) : ℕ := nowMs / 1000 / TOTP_STEP_SECONDS

def totpCode (key : List (BitVec 8)) (step : ℕ) : CodeUnits := hotp hmac key step

/-- `input.replace(/\s+/g, "")`. -/
def compact (input : CodeUnits) : CodeUnits := input.filter fun u => !isSpace u

/-- `/^\d{6}$/`. -/
def isSixDigits (code : CodeUnits) : Bool := code.length == TOTP_DIGITS && code.all isDigit

def looksLikeTotpCode (input : CodeUnits) : Bool := isSixDigits (compact input)

/-- The steps compared, in their order. -/
def candidates (current : ℕ) : List ℕ :=
  (List.range (2 * TOTP_WINDOW_STEPS + 1)).map (current - TOTP_WINDOW_STEPS + ·)

/-- `lastStep === null || step > lastStep`. -/
def usable (lastStep : Option ℕ) (step : ℕ) : Bool := lastStep.all (· < step)

/-- The step the code belongs to, if there is one.  `none` when it throws: `writeBigUInt64BE` refuses
a step before the first. -/
def matchTotpStep (key : List (BitVec 8)) (input : CodeUnits) (nowMs : Time) (lastStep : Option ℕ) :
    Option (Option ℕ) :=
  let code := compact input
  if !isSixDigits code then some none
  else if totpStep nowMs < TOTP_WINDOW_STEPS then none
  else
    some ((candidates (totpStep nowMs)).foldl
      (fun matched step =>
        if totpCode hmac key step = code ∧ usable lastStep step ∧ matched = none then some step
        else matched) none)

/-! ## Recovery codes -/

/-- `raw.match(/.{4}/g)`. -/
def fours : CodeUnits → List CodeUnits
  | a :: b :: c :: d :: rest => [a, b, c, d] :: fours rest
  | _ => []

/-- A code for display, from its random bytes. -/
def generateRecoveryCode (bytes : Vector (BitVec 8) RECOVERY_CODE_BYTES) : CodeUnits :=
  [0x2d].intercalate (fours ((base32Encode bytes.toList).map lower))

/-- What `[\s-]` leaves. -/
def isKept (u : UInt16) : Bool := !(isSpace u || u == 0x2d)

/-- `normalizeRecoveryCode`. -/
def normalizeRecoveryCode (input : CodeUnits) : Option CodeUnits :=
  let compact := toUpperCase (input.filter isKept)
  if compact.length = 16 ∧ compact.all (BASE32_ALPHABET.contains ·) then some compact else none

/-! ## Matches -/

theorem foldl_first {α : Type*} (p : α → Prop) [DecidablePred p] (l : List α) (first : Option α) :
    l.foldl (fun matched a => if p a ∧ matched = none then some a else matched) first =
      first.or (l.find? p) := by
  induction l generalizing first with
  | nil => simp
  | cons a l ih =>
    rw [List.foldl_cons, ih]
    cases first with
    | some b => simp
    | none => by_cases h : p a <;> simp [h]

variable {hmac} {key : List (BitVec 8)} {input : CodeUnits} {nowMs : Time} {lastStep : Option ℕ} {step : ℕ}

theorem mem_candidates {current : ℕ} (h : TOTP_WINDOW_STEPS ≤ current) :
    step ∈ candidates current ↔ current ≤ step + TOTP_WINDOW_STEPS ∧ step ≤ current + TOTP_WINDOW_STEPS := by
  unfold candidates
  rw [List.mem_map]
  constructor
  · rintro ⟨i, hi, rfl⟩
    rw [List.mem_range] at hi
    omega
  · rintro ⟨hlow, hhigh⟩
    exact ⟨step - (current - TOTP_WINDOW_STEPS), List.mem_range.mpr (by omega), by omega⟩

theorem matchTotpStep_eq (hshape : looksLikeTotpCode input = true)
    (hstep : TOTP_WINDOW_STEPS ≤ totpStep nowMs) :
    matchTotpStep hmac key input nowMs lastStep = some ((candidates (totpStep nowMs)).find? fun step =>
      totpCode hmac key step = compact input ∧ usable lastStep step) := by
  unfold looksLikeTotpCode at hshape
  unfold matchTotpStep
  dsimp only
  rw [hshape, if_neg (by decide), if_neg (not_lt.mpr hstep)]
  simp only [← and_assoc]
  rw [foldl_first]
  rfl

/-- What a match says. -/
theorem matchTotpStep_eq_some (h : matchTotpStep hmac key input nowMs lastStep = some (some step)) :
    totpCode hmac key step = compact input ∧ usable lastStep step = true ∧
      totpStep nowMs ≤ step + TOTP_WINDOW_STEPS ∧ step ≤ totpStep nowMs + TOTP_WINDOW_STEPS := by
  have hshape : looksLikeTotpCode input = true := by
    by_contra hno
    unfold looksLikeTotpCode at hno
    unfold matchTotpStep at h
    simp [hno] at h
  have hstep : TOTP_WINDOW_STEPS ≤ totpStep nowMs := by
    by_contra hno
    unfold looksLikeTotpCode at hshape
    unfold matchTotpStep at h
    simp [hshape, not_le.mp hno] at h
  rw [matchTotpStep_eq hshape hstep] at h
  have hfind := Option.some.inj h
  have hmem := (mem_candidates hstep).mp (List.mem_of_find?_eq_some hfind)
  have hp := List.find?_some hfind
  rw [decide_eq_true_eq] at hp
  exact ⟨hp.1, hp.2, hmem⟩

/-! ## The codes have their shapes -/

theorem isDigit_unit {c : Char} (h : c.isDigit = true) : CodeUnits.isDigit (UInt16.ofNat c.toNat) = true := by
  have hn := Text.isDigit_toNat h
  unfold CodeUnits.isDigit
  simp [UInt16.le_iff_toNat_le, UInt16.toNat_ofNat']
  omega

theorem isSixDigits_padStart {value : ℕ} (h : value < 10 ^ TOTP_DIGITS) :
    isSixDigits (padStart TOTP_DIGITS value) = true := by
  have hlen : (Text.decimal value).length ≤ TOTP_DIGITS := Text.length_decimal_le (by decide) h
  unfold isSixDigits padStart
  dsimp only
  rw [Bool.and_eq_true, beq_iff_eq, List.all_eq_true]
  constructor
  · rw [List.length_append, List.length_replicate, List.length_map, Nat.sub_add_cancel hlen]
  · intro u hu
    rcases List.mem_append.mp hu with hu | hu
    · rw [List.eq_of_mem_replicate hu]
      decide
    · obtain ⟨c, hc, rfl⟩ := List.mem_map.mp hu
      exact isDigit_unit (Text.isDigit_of_mem_decimal hc)

theorem looksLikeTotpCode_of_code {hmac : HmacSha1} {key : List (BitVec 8)} {step : ℕ} {input : CodeUnits}
    (h : compact input = totpCode hmac key step) : looksLikeTotpCode input = true := by
  unfold looksLikeTotpCode
  rw [h]
  unfold totpCode hotp
  exact isSixDigits_padStart (Nat.mod_lt _ (by decide))

theorem sorted_candidates (current : ℕ) : (candidates current).Pairwise (· < ·) := by
  unfold candidates
  rw [List.pairwise_map]
  exact List.pairwise_lt_range.imp fun h => Nat.add_lt_add_left h _

/-- The code of a usable step in the window is accepted, for that step or for an earlier one. -/
theorem matchTotpStep_of_code (h : compact input = totpCode hmac key step)
    (hfirst : TOTP_WINDOW_STEPS ≤ totpStep nowMs) (hlow : totpStep nowMs ≤ step + TOTP_WINDOW_STEPS)
    (hhigh : step ≤ totpStep nowMs + TOTP_WINDOW_STEPS) (husable : usable lastStep step = true) :
    ∃ accepted, matchTotpStep hmac key input nowMs lastStep = some (some accepted) ∧ accepted ≤ step := by
  rw [matchTotpStep_eq (looksLikeTotpCode_of_code h) hfirst]
  have hmem := (mem_candidates hfirst).mpr ⟨hlow, hhigh⟩
  cases hfind : (candidates (totpStep nowMs)).find? fun step =>
      decide (totpCode hmac key step = compact input ∧ usable lastStep step) with
  | some accepted =>
    refine ⟨accepted, rfl, ?_⟩
    obtain ⟨-, before, after, hsplit, hbefore⟩ := List.find?_eq_some_iff_append.mp hfind
    have hsorted := sorted_candidates (totpStep nowMs)
    rw [hsplit] at hmem hsorted
    rcases List.mem_append.mp hmem with hearly | hlate
    · have hno := hbefore step hearly
      simp [h, husable] at hno
    · rcases List.mem_cons.mp hlate with rfl | hlater
      · exact le_rfl
      · exact (List.rel_of_pairwise_cons (List.pairwise_append.mp hsorted).2.1 hlater).le
  | none =>
    have hno := List.find?_eq_none.mp hfind step hmem
    simp [h, husable] at hno

/-! ## Recovery codes as they are typed -/

/-- Equal but for letter case, blanks and dashes. -/
def Retyped (typed shown : CodeUnits) : Prop :=
  (typed.filter isKept).map upper = (shown.filter isKept).map upper

theorem length_base32Encode_ten (bytes : Vector (BitVec 8) RECOVERY_CODE_BYTES) :
    (base32Encode bytes.toList).length = 16 := by
  obtain ⟨digits, pad, hencode, hspells⟩ := base32Encode_spec bytes.toList
  have hlen := hspells.regrouped.length
  have hshort := hspells.short
  have hbytes : (values bytes.toList).length = 10 := by
    unfold values
    rw [List.length_map, Vector.length_toList]
    rfl
  rw [hencode, List.length_map]
  omega

theorem flatten_fours {n : ℕ} {s : CodeUnits} (h : s.length = 4 * n) : (fours s).flatten = s := by
  induction n generalizing s with
  | zero =>
    rw [List.length_eq_zero_iff.mp h]
    rfl
  | succ n ih =>
    rcases s with - | ⟨a, - | ⟨b, - | ⟨c, - | ⟨d, rest⟩⟩⟩⟩
    case cons.cons.cons.cons =>
      have hrest : rest.length = 4 * n := by
        simp only [List.length_cons] at h
        omega
      rw [fours, List.flatten_cons, ih hrest]
      rfl
    all_goals
      simp only [List.length_nil, List.length_cons] at h
      omega

theorem filter_intercalate_dash (parts : List CodeUnits) :
    (([0x2d] : CodeUnits).intercalate parts).filter isKept = parts.flatten.filter isKept := by
  induction parts with
  | nil => rfl
  | cons s parts ih =>
    cases parts with
    | nil => simp
    | cons t parts =>
      rw [List.intercalate_cons_cons, List.flatten_cons, List.filter_append, List.filter_append,
        List.filter_append, ih]
      simp [isKept, isSpace]

/-- What holds of the letters of the alphabet holds of the letters of a code. -/
theorem forall_mem_base32Encode {P : UInt16 → Prop} (h : ∀ i : Fin 32, P (letterAt i))
    (bytes : List (BitVec 8)) : ∀ u ∈ base32Encode bytes, P u := by
  intro u hu
  obtain ⟨digits, pad, hencode, hspells⟩ := base32Encode_spec bytes
  rw [hencode] at hu
  obtain ⟨d, hd, rfl⟩ := List.mem_map.mp hu
  exact h ⟨d, hspells.digits d hd⟩

theorem isKept_lower : ∀ i : Fin 32, isKept (lower (letterAt i)) = true := by decide +kernel

theorem mem_alphabet : ∀ i : Fin 32, BASE32_ALPHABET.contains (letterAt i) = true := by decide +kernel

theorem filter_generateRecoveryCode (bytes : Vector (BitVec 8) RECOVERY_CODE_BYTES) :
    (generateRecoveryCode bytes).filter isKept = (base32Encode bytes.toList).map lower := by
  unfold generateRecoveryCode
  have hlen : ((base32Encode bytes.toList).map lower).length = 4 * 4 := by
    rw [List.length_map, length_base32Encode_ten]
  rw [filter_intercalate_dash, flatten_fours hlen, List.filter_eq_self]
  intro u hu
  obtain ⟨v, hv, rfl⟩ := List.mem_map.mp hu
  exact forall_mem_base32Encode (P := fun u => isKept (lower u) = true) isKept_lower bytes.toList v hv

/-- What was shown is typed in, as upper case, without blanks and dashes. -/
theorem map_upper_of_retyped {typed : CodeUnits} {bytes : Vector (BitVec 8) RECOVERY_CODE_BYTES}
    (h : Retyped typed (generateRecoveryCode bytes)) :
    (typed.filter isKept).map upper = base32Encode bytes.toList := by
  unfold Retyped at h
  rw [h, filter_generateRecoveryCode, List.map_map]
  have hid : (base32Encode bytes.toList).map (upper ∘ lower) = (base32Encode bytes.toList).map id :=
    List.map_congr_left fun u hu => (upper_lower u).trans (mem_base32Encode hu).1
  rw [hid, List.map_id]

variable {toUpperCase : CodeUnits → CodeUnits}

theorem normalizeRecoveryCode_retyped (hupper : UpperCases toUpperCase) {typed : CodeUnits}
    {bytes : Vector (BitVec 8) RECOVERY_CODE_BYTES} (h : Retyped typed (generateRecoveryCode bytes)) :
    normalizeRecoveryCode toUpperCase typed = some (base32Encode bytes.toList) := by
  have hmap := map_upper_of_retyped h
  have hspelled := (map_upper_eq_iff.mp hmap).1
  have hcase : toUpperCase (typed.filter isKept) = base32Encode bytes.toList := by
    rw [hupper _ fun u hu => ascii_of_spelled (hspelled u hu), hmap]
  have hletters : (base32Encode bytes.toList).all (BASE32_ALPHABET.contains ·) = true :=
    List.all_eq_true.mpr
      (forall_mem_base32Encode (P := fun u => BASE32_ALPHABET.contains u = true) mem_alphabet bytes.toList)
  unfold normalizeRecoveryCode
  dsimp only
  rw [hcase, if_pos ⟨length_base32Encode_ten bytes, hletters⟩]

/-- A recovery code is never taken for a code of the app. -/
theorem not_looksLikeTotpCode {typed : CodeUnits} {bytes : Vector (BitVec 8) RECOVERY_CODE_BYTES}
    (h : Retyped typed (generateRecoveryCode bytes)) : looksLikeTotpCode typed = false := by
  by_contra hcode
  unfold looksLikeTotpCode isSixDigits at hcode
  rw [Bool.not_eq_false, Bool.and_eq_true, beq_iff_eq, List.all_eq_true] at hcode
  obtain ⟨hsix, hdigits⟩ := hcode
  have hkept : typed.filter isKept = compact typed := by
    refine List.filter_congr fun u hu => ?_
    unfold isKept
    by_cases hspace : isSpace u = true
    · simp [hspace]
    · have hdigit := hdigits u (List.mem_filter.mpr ⟨hu, by simp [hspace]⟩)
      unfold CodeUnits.isDigit at hdigit
      grind
  have hlen := congrArg List.length (map_upper_of_retyped h)
  rw [List.length_map, hkept, hsix, length_base32Encode_ten] at hlen
  cases hlen

theorem base32Encode_injective : Function.Injective base32Encode := by
  intro a b h
  have ha : base32Decode id (base32Encode a) = some a := base32Decode_eq_some.mpr rfl
  have hb : base32Decode id (base32Encode b) = some b := base32Decode_eq_some.mpr rfl
  rw [h, hb] at ha
  exact (Option.some.inj ha).symm

/-- **What was issued is recognised as it is typed in.**  The code that the app shows for a step within
the window, newer than the last one, is accepted, however it is spaced, for a step with that very code
no later than it.  A recovery code is normalized to what was stored, whatever the letter case, the
blanks and the dashes, is never taken for a code of the app, and is no other code. -/
theorem factors_recognised (hmac : HmacSha1) (hupper : UpperCases toUpperCase) :
    (∀ key input nowMs lastStep step, compact input = totpCode hmac key step →
      TOTP_WINDOW_STEPS ≤ totpStep nowMs → totpStep nowMs ≤ step + TOTP_WINDOW_STEPS →
      step ≤ totpStep nowMs + TOTP_WINDOW_STEPS → usable lastStep step = true →
      ∃ accepted, matchTotpStep hmac key input nowMs lastStep = some (some accepted) ∧ accepted ≤ step ∧
        totpCode hmac key accepted = totpCode hmac key step ∧ usable lastStep accepted = true) ∧
    ∀ (bytes : Vector (BitVec 8) RECOVERY_CODE_BYTES) (typed : CodeUnits),
      Retyped typed (generateRecoveryCode bytes) →
      normalizeRecoveryCode toUpperCase typed = some (base32Encode bytes.toList) ∧
        looksLikeTotpCode typed = false ∧
        ∀ other : Vector (BitVec 8) RECOVERY_CODE_BYTES, normalizeRecoveryCode toUpperCase typed =
          normalizeRecoveryCode toUpperCase (generateRecoveryCode other) → other = bytes := by
  constructor
  · intro key input nowMs lastStep step hcode hfirst hlow hhigh husable
    obtain ⟨accepted, hmatch, hle⟩ := matchTotpStep_of_code hcode hfirst hlow hhigh husable
    obtain ⟨hsame, hnew, -⟩ := matchTotpStep_eq_some hmatch
    exact ⟨accepted, hmatch, hle, hsame.trans hcode, hnew⟩
  · intro bytes typed hretyped
    have hnormal := normalizeRecoveryCode_retyped hupper hretyped
    refine ⟨hnormal, not_looksLikeTotpCode hretyped, fun other hother => ?_⟩
    rw [hnormal, normalizeRecoveryCode_retyped hupper (show Retyped _ (generateRecoveryCode other) from rfl)]
      at hother
    exact (Vector.toList_inj.mp (base32Encode_injective (Option.some.inj hother))).symm

/-- A recovery code typed in upper case with blanks, and the code of the app spaced in the middle. -/
theorem factors_recognised_typed :
    normalizeRecoveryCode (List.map upper) (of " AAAA aaaa AAAA-aaaa") = some (of "AAAAAAAAAAAAAAAA") ∧
      ∃ accepted, matchTotpStep (fun _ _ => Vector.replicate 20 0#8) [] (of "000 000") 60000 (some 1) =
        some (some accepted) := by
  have hupper : UpperCases (List.map upper) := fun _ _ => rfl
  obtain ⟨hcodes, hrecovery⟩ := factors_recognised (fun _ _ => Vector.replicate 20 0#8) hupper
  have hretyped : Retyped (of " AAAA aaaa AAAA-aaaa") (generateRecoveryCode (Vector.replicate 10 0#8)) := by
    unfold Retyped
    decide +kernel
  have htyped := (hrecovery _ _ hretyped).1
  have hzero : base32Encode (Vector.replicate 10 0#8).toList = of "AAAAAAAAAAAAAAAA" := by decide +kernel
  obtain ⟨accepted, hmatch, -⟩ := hcodes [] (of "000 000") 60000 (some 1) 2 (by decide +kernel) (by decide)
    (by decide) (by decide) (by decide)
  exact ⟨htyped.trans (congrArg some hzero), accepted, hmatch⟩

end BunMail.Users.Totp
