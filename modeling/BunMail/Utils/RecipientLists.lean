import BunMail.Lib.LowerCase
import BunMail.Utils.Recipients

/-!
# Recipient lists as text

A list of recipients is stored as text: addresses joined by `", "`.  Pieces are trimmed, empty ones
dropped, and duplicates that differ in case only removed.  Which addresses the recipient parser reads
from such text depends on the shape of the pieces alone, and the shape does not depend on their case.
-/

namespace BunMail.Recipients

open Text

/-! ## The shape of an address -/

/-- `isEmailAddress`: one bare address in the shape the parser accepts. -/
def isEmailAddress (value : Text) : Bool :=
  decide (utf16Length value ≤ MAX_ADDRESS_LENGTH) && EMAIL_RE value

theorem localChar_of_not_fixed {c : Char} (h : isFixed c = false) : localChar c = true := by
  unfold localChar
  have hs : isSpace c = false := (Bool.or_eq_false_iff.mp h).1
  rw [hs, Bool.not_false, Bool.true_and, Bool.not_eq_true', decide_eq_false_iff_not]
  intro hm
  have hfixed : ['@', ',', '<', '>', '"'].all isFixed = true := by decide +kernel
  rw [List.all_eq_true.mp hfixed c hm] at h
  cases h

theorem all_localChar {s t : Text} (h : Lowers s t) : s.all localChar = t.all localChar :=
  h.all_eq fun _ => localChar_of_not_fixed

/-- Every label of a domain is nonempty, in its shape. -/
theorem all_labels {ss ts : List Text} (h : List.Forall₂ Lowers ss ts) :
    (ss.all fun label => label ≠ [] && label.all localChar) =
      ts.all fun label => label ≠ [] && label.all localChar := by
  induction h with
  | nil => rfl
  | cons hd _ ih =>
    rw [List.all_cons, List.all_cons, ih, all_localChar hd]
    simp only [ne_eq, hd.eq_nil_iff]

/-- **The shape of an address does not depend on case.** -/
theorem EMAIL_RE_lowers {s t : Text} (h : Lowers s t) : EMAIL_RE s = EMAIL_RE t := by
  unfold EMAIL_RE
  have hat := h.splitOn (c := '@') (by decide)
  revert hat
  generalize s.splitOn '@' = ss
  generalize t.splitOn '@' = ts
  intro hat
  cases hat with
  | nil => rfl
  | @cons l l' ss ts hl hss =>
    cases hss with
    | nil => rfl
    | @cons d d' ss ts hd hss =>
      cases hss with
      | nil =>
        have hlabels := hd.splitOn (c := '.') (by decide)
        dsimp only
        rw [all_localChar hl, all_labels hlabels, hlabels.length_eq]
        simp only [ne_eq, hl.eq_nil_iff]
      | cons _ _ => rfl

theorem EMAIL_RE_of_lower_eq {toLowerCase : Text → Text} (hlow : IsLowerCase toLowerCase) {s t : Text}
    (h : toLowerCase s = toLowerCase t) : EMAIL_RE s = EMAIL_RE t := by
  rw [EMAIL_RE_lowers (hlow.lowers s), h, ← EMAIL_RE_lowers (hlow.lowers t)]

/-- A character other than the separator is in one of the parts. -/
theorem exists_mem_splitOn {s : Text} {c sep : Char} (hc : c ∈ s) (hne : c ≠ sep) :
    ∃ part ∈ s.splitOn sep, c ∈ part := by
  induction s with
  | nil => cases hc
  | cons d s ih =>
    rw [List.splitOn_cons_eq_if_modifyHead]
    by_cases hd : d = sep
    · rw [if_pos (by simpa using hd)]
      have hc' : c ∈ s := (List.mem_cons.mp hc).resolve_left fun h => hne (h.trans hd)
      obtain ⟨part, hp, hcp⟩ := ih hc'
      exact ⟨part, List.mem_cons_of_mem _ hp, hcp⟩
    · rw [if_neg (by simpa using hd)]
      have hsplit := List.splitOn_ne_nil sep s
      revert ih hsplit
      generalize s.splitOn sep = parts
      intro ih hsplit
      obtain ⟨head, tail, rfl⟩ := List.exists_cons_of_ne_nil hsplit
      rcases List.mem_cons.mp hc with rfl | hc'
      · exact ⟨_, List.mem_cons_self, List.mem_cons_self⟩
      · obtain ⟨part, hp, hcp⟩ := ih hc'
        rcases List.mem_cons.mp hp with rfl | hp
        · exact ⟨_, List.mem_cons_self, List.mem_cons_of_mem _ hcp⟩
        · exact ⟨part, List.mem_cons_of_mem _ hp, hcp⟩

/-- No character of an address is white space or a comma. -/
theorem mem_of_EMAIL_RE {s : Text} (h : EMAIL_RE s = true) {c : Char} (hc : c ∈ s) :
    isSpace c = false ∧ c ≠ ',' := by
  have hlocal : ∀ {d : Char}, localChar d = true → isSpace d = false ∧ d ≠ ',' := by
    intro d hd
    unfold localChar at hd
    rw [Bool.and_eq_true, Bool.not_eq_true', Bool.not_eq_true', decide_eq_false_iff_not] at hd
    exact ⟨hd.1, fun he => hd.2 (by rw [he]; decide)⟩
  by_cases hat : c = '@'
  · rw [hat]
    exact ⟨by decide, by decide⟩
  obtain ⟨side, hside, hcs⟩ := exists_mem_splitOn hc hat
  unfold EMAIL_RE at h
  revert h hside
  generalize s.splitOn '@' = parts
  intro h hside
  rcases parts with _ | ⟨l, _ | ⟨d, _ | ⟨_, _⟩⟩⟩
  · cases h
  · cases h
  · simp only [Bool.and_eq_true, decide_eq_true_eq] at h
    obtain ⟨⟨_, hl⟩, _, hlabels⟩ := h
    rcases List.mem_cons.mp hside with rfl | hside
    · exact hlocal (List.all_eq_true.mp hl c hcs)
    · rw [List.mem_singleton.mp hside] at hcs
      by_cases hdot : c = '.'
      · rw [hdot]
        exact ⟨by decide, by decide⟩
      · obtain ⟨label, hlabel, hcl⟩ := exists_mem_splitOn hcs hdot
        have hall := List.all_eq_true.mp hlabels label hlabel
        rw [Bool.and_eq_true] at hall
        exact hlocal (List.all_eq_true.mp hall.2 c hcl)
  · cases h

theorem trim_of_EMAIL_RE {s : Text} (h : EMAIL_RE s = true) : trim s = s :=
  trim_of_all fun _ hc => (mem_of_EMAIL_RE h hc).1

theorem comma_notMem_of_EMAIL_RE {s : Text} (h : EMAIL_RE s = true) : ',' ∉ s :=
  fun hc => (mem_of_EMAIL_RE h hc).2 rfl

theorem ne_nil_of_EMAIL_RE {s : Text} (h : EMAIL_RE s = true) : s ≠ [] := by
  rintro rfl
  revert h
  decide

/-! ## What the parser reads -/

section Read

variable {toLowerCase : Text → Text} {to_ : Text} {cc bcc : Option Text}

/-- The trimmed pieces of a stored list. -/
def piecesOf (raw : Option Text) : List Text := raw.elim [] fun text => (text.splitOn ',').map trim

/-- The lowercased addresses among pieces. -/
def addressesOf (toLowerCase : Text → Text) (pieces : List Text) : List Text :=
  (pieces.filter isEmailAddress).map toLowerCase

theorem mem_addressesOf {pieces : List Text} {k : Text} :
    k ∈ addressesOf toLowerCase pieces ↔
      ∃ piece ∈ pieces, isEmailAddress piece = true ∧ toLowerCase piece = k := by
  unfold addressesOf
  simp only [List.mem_map, List.mem_filter, and_assoc]

theorem mem_keys_ingestPiece {kind : RecipientKind} {byLower : ByLower toLowerCase} {piece k : Text} :
    k ∈ (ingestPiece toLowerCase kind byLower piece).keys ↔ k ∈ byLower.keys ∨
      isEmailAddress (trim piece) = true ∧ toLowerCase (trim piece) = k := by
  unfold ingestPiece isEmailAddress
  dsimp only
  rw [Bool.and_eq_true, decide_eq_true_eq]
  by_cases hre : EMAIL_RE (trim piece) = true
  · by_cases hlen : utf16Length (trim piece) ≤ MAX_ADDRESS_LENGTH
    · rw [if_neg (not_or.mpr ⟨ne_nil_of_EMAIL_RE hre, not_lt.mpr hlen⟩), if_neg (by simp [hre]),
        Table.mem_keys_upsert]
      simp only [hlen, hre, true_and]
      exact ⟨fun h => h.symm.imp_right Eq.symm, fun h => h.symm.imp_left Eq.symm⟩
    · rw [if_pos (.inr (not_le.mp hlen))]
      simp only [hlen, false_and, or_false]
  · have hno : ¬((utf16Length (trim piece) ≤ MAX_ADDRESS_LENGTH ∧ EMAIL_RE (trim piece) = true) ∧
        toLowerCase (trim piece) = k) := fun h => hre h.1.2
    rw [or_iff_left hno]
    have hsame : (if trim piece = [] ∨ MAX_ADDRESS_LENGTH < utf16Length (trim piece) then byLower
        else if (!EMAIL_RE (trim piece)) = true then byLower
        else byLower.upsert ⟨kind, trim piece, domainOf toLowerCase (trim piece)⟩ id
          fun _ _ => rfl) = byLower := by
      rw [if_pos (by simpa using hre : (!EMAIL_RE (trim piece)) = true), ite_self]
    rw [hsame]

theorem mem_keys_ingest {kind : RecipientKind} {byLower : ByLower toLowerCase} {raw : Option Text}
    {k : Text} : k ∈ (ingest toLowerCase kind byLower raw).keys ↔
      k ∈ byLower.keys ∨ k ∈ addressesOf toLowerCase (piecesOf raw) := by
  rw [mem_addressesOf]
  unfold ingest piecesOf
  cases raw with
  | none => simp
  | some text =>
    dsimp only [Option.elim_some]
    induction text.splitOn ',' generalizing byLower with
    | nil => simp
    | cons piece pieces ih =>
      rw [List.foldl_cons, ih, mem_keys_ingestPiece, List.map_cons, or_assoc]
      simp only [List.mem_cons, or_and_right, exists_or, exists_eq_left]

/-- **The parsed recipients** are the addresses among the pieces of the three fields. -/
theorem mem_recipientOrder {k : Text} : k ∈ recipientOrder toLowerCase to_ cc bcc ↔
    k ∈ addressesOf toLowerCase (piecesOf (some to_)) ∨ k ∈ addressesOf toLowerCase (piecesOf cc) ∨
      k ∈ addressesOf toLowerCase (piecesOf bcc) := by
  show k ∈ (byLowerOf toLowerCase to_ cc bcc).keys ↔ _
  unfold byLowerOf
  rw [mem_keys_ingest, mem_keys_ingest, mem_keys_ingest, Table.keys_empty]
  simp only [List.not_mem_nil, false_or, or_assoc]

/-- The recipients of an email are trimmed and lowercase. -/
theorem recipient_normal (hlow : IsLowerCase toLowerCase) {recipient : Text}
    (h : recipient ∈ recipientOrder toLowerCase to_ cc bcc) :
    trim recipient = recipient ∧ toLowerCase recipient = recipient := by
  have hread : ∀ {pieces : List Text}, recipient ∈ addressesOf toLowerCase pieces →
      ∃ piece, EMAIL_RE piece = true ∧ toLowerCase piece = recipient := by
    intro pieces hmem
    obtain ⟨piece, _, hemail, heq⟩ := mem_addressesOf.mp hmem
    exact ⟨piece, (Bool.and_eq_true_iff.mp hemail).2, heq⟩
  obtain ⟨piece, hre, rfl⟩ : ∃ piece, EMAIL_RE piece = true ∧ toLowerCase piece = recipient := by
    rcases mem_recipientOrder.mp h with h | h | h
    · exact hread h
    · exact hread h
    · exact hread h
  exact ⟨trim_of_EMAIL_RE (EMAIL_RE_lowers (hlow.lowers piece) ▸ hre), hlow.idempotent piece⟩

/-- A blank field has no recipient. -/
theorem ingest_blank {kind : RecipientKind} {byLower : ByLower toLowerCase} {raw : Option Text}
    (h : trim (raw.getD []) = []) : ingest toLowerCase kind byLower raw = byLower := by
  unfold ingest
  cases raw with
  | none => rfl
  | some text =>
    rw [Option.getD_some] at h
    have hcomma : ',' ∉ text := by
      intro hmem
      exact absurd (isSpace_of_trim_eq_nil h _ hmem) (by decide)
    dsimp only
    rw [List.splitOn_eq_singleton hcomma, List.foldl_cons, List.foldl_nil]
    unfold ingestPiece
    dsimp only
    rw [if_pos (.inl h)]

end Read

/-! ## Lists without duplicates -/

section Dedupe

variable (toLowerCase : Text → Text)

/-- Adds a trimmed address, unless it is empty or there in some spelling. -/
def addOnce (out : List Text) (raw : Text) : List Text :=
  let address := trim raw
  if address = [] ∨ toLowerCase address ∈ out.map toLowerCase then out else out ++ [address]

/-- Trimmed, without empty entries and without duplicates ignoring case, the first spelling kept. -/
def dedupe (addresses : List Text) : List Text := addresses.foldl (addOnce toLowerCase) []

/-- `normalizeToList` of a string: the addresses of a send's `to`. -/
def normalizeToList (to_ : Text) : List Text := dedupe toLowerCase (to_.splitOn ',')

/-- `joinToList`. -/
def joinToList (addresses : List Text) : Text := join ", " addresses

/-- `MAX_TO_RECIPIENTS`. -/
def MAX_TO_RECIPIENTS : ℕ := 50

/-- `MAX_TOTAL_RECIPIENTS`. -/
def MAX_TOTAL_RECIPIENTS : ℕ := 100

/-- `RecipientCapProblem`. -/
inductive RecipientCapProblem
  | to_ | total
  deriving DecidableEq, Repr

/-- The cap a send breaks, if any. -/
def recipientCapProblem (toList : List Text) (cc bcc : Option Text) : Option RecipientCapProblem :=
  if MAX_TO_RECIPIENTS < toList.length then some .to_
  else if MAX_TOTAL_RECIPIENTS < (parseRecipients toLowerCase (joinToList toList) cc bcc).length then
    some .total
  else none

variable {toLowerCase} {addresses : List Text}

/-- Every entry is one of the addresses, trimmed. -/
theorem mem_dedupe {a : Text} (h : a ∈ dedupe toLowerCase addresses) :
    a ≠ [] ∧ ∃ raw ∈ addresses, trim raw = a := by
  unfold dedupe at h
  induction addresses using List.reverseRecOn with
  | nil => cases h
  | append_singleton addresses raw ih =>
    rw [List.foldl_append, List.foldl_cons, List.foldl_nil] at h
    unfold addOnce at h
    dsimp only at h
    have hold : a ∈ addresses.foldl (addOnce toLowerCase) [] →
        a ≠ [] ∧ ∃ raw' ∈ addresses ++ [raw], trim raw' = a := by
      intro ha
      obtain ⟨hne, raw', hraw, heq⟩ := ih ha
      exact ⟨hne, raw', List.mem_append_left _ hraw, heq⟩
    split_ifs at h with hc
    · exact hold h
    · rcases List.mem_append.mp h with h | h
      · exact hold h
      · rw [List.mem_singleton.mp h]
        exact ⟨(not_or.mp hc).1, raw, List.mem_append_right _ (List.mem_singleton_self _), rfl⟩

/-- No spelling is lost. -/
theorem mem_lower_dedupe {k : Text} : k ∈ (dedupe toLowerCase addresses).map toLowerCase ↔
    ∃ raw ∈ addresses, trim raw ≠ [] ∧ toLowerCase (trim raw) = k := by
  unfold dedupe
  induction addresses using List.reverseRecOn with
  | nil => simp
  | append_singleton addresses raw ih =>
    rw [List.foldl_append, List.foldl_cons, List.foldl_nil]
    unfold addOnce
    dsimp only
    have hsplit : (∃ raw' ∈ addresses ++ [raw], trim raw' ≠ [] ∧ toLowerCase (trim raw') = k) ↔
        k ∈ (addresses.foldl (addOnce toLowerCase) []).map toLowerCase ∨
          trim raw ≠ [] ∧ toLowerCase (trim raw) = k := by
      rw [ih]
      simp only [List.mem_append, List.mem_singleton, or_and_right, exists_or, exists_eq_left]
    rw [hsplit]
    split_ifs with hc
    · refine ⟨.inl, fun h => h.elim id ?_⟩
      rintro ⟨hne, rfl⟩
      exact hc.resolve_left hne
    · rw [List.map_append, List.mem_append, List.map_singleton, List.mem_singleton]
      exact or_congr_right ⟨fun h => ⟨(not_or.mp hc).1, h.symm⟩, fun h => h.2.symm⟩

/-- A list of addresses is read back from its stored form. -/
theorem piecesOf_join (h : ∀ a ∈ addresses, EMAIL_RE a = true) (hne : addresses ≠ []) :
    piecesOf (some (join ", " addresses)) = addresses :=
  map_trim_splitOn_join hne fun a ha => ⟨comma_notMem_of_EMAIL_RE (h a ha), trim_of_EMAIL_RE (h a ha)⟩

end Dedupe

end BunMail.Recipients
