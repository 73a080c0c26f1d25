import Mathlib.Data.List.Sort
import BunMail.Lib.Fields
import BunMail.Lib.Table

/-!
# Custom headers

`custom-headers.ts`: the one definition of the headers a caller may set.  What the filter keeps is a set
that meets every rule, whatever order its entries come in, so every later gate keeps all of it.
-/

namespace BunMail.Emails

open Text

/-! ## The rules -/

/-- At most this many custom headers on one email. -/
def MAX_CUSTOM_HEADERS : ℕ := 20

/-- Longest accepted header name, in characters. -/
def MAX_CUSTOM_HEADER_NAME_LENGTH : ℕ := 64

/-- Longest accepted header value, in characters. -/
def MAX_CUSTOM_HEADER_VALUE_LENGTH : ℕ := 998

/-- Cap on all names plus all values together, in UTF-8 bytes. -/
def MAX_CUSTOM_HEADERS_BYTES : ℕ := 8 * 1024

/-- A character of `HEADER_NAME_PATTERN`. -/
def isHeaderNameChar (c : Char) : Bool :=
  (decide (0x21 ≤ c.toNat) && decide (c.toNat ≤ 0x39)) ||
    (decide (0x3b ≤ c.toNat) && decide (c.toNat ≤ 0x7e))

/-- A character of `FORBIDDEN_VALUE_CHARS`. -/
def isForbiddenValueChar (c : Char) : Bool :=
  decide (c.toNat ≤ 0x08) || (decide (0x0a ≤ c.toNat) && decide (c.toNat ≤ 0x1f)) ||
    (decide (0x7f ≤ c.toNat) && decide (c.toNat ≤ 0x9f)) || c == '\u2028' || c == '\u2029'

/-- `RESERVED_HEADER_NAMES`. -/
def RESERVED_HEADER_NAMES : List Text :=
  ["from", "sender", "to", "cc", "bcc", "reply-to", "subject", "date", "message-id", "return-path",
    "received", "dkim-signature", "authentication-results", "received-spf", "mime-version",
    "list-unsubscribe", "list-unsubscribe-post", "list-id", "feedback-id", "precedence",
    "auto-submitted"].map String.toList

/-- `RESERVED_HEADER_PREFIXES`. -/
def RESERVED_HEADER_PREFIXES : List Text := ["content-", "arc-", "x-bunmail-"].map String.toList

/-- `CustomHeaderProblem`. -/
inductive CustomHeaderProblem where
  | invalid_name
  | invalid_value
  | value_too_long
  | reserved
  | duplicate
  | too_many
  | too_large
  deriving DecidableEq

/-- `DroppedHeader`: an invalid name is never echoed. -/
structure DroppedHeader where
  name : Option Text
  problem : CustomHeaderProblem
  deriving DecidableEq

/-- A name and a value. -/
abbrev HeaderEntry := Text × Text

/-- `CustomHeaders`. -/
abbrev CustomHeaders := Table (Prod.fst : HeaderEntry → Text)

/-- The bytes of a name plus its value. -/
def entryBytes (e : HeaderEntry) : ℕ := utf8Length e.1 + utf8Length e.2

/-- `isValidHeaderName`. -/
def isValidHeaderName (name : Text) : Bool :=
  decide (utf16Length name ≤ MAX_CUSTOM_HEADER_NAME_LENGTH) && decide (name ≠ []) &&
    name.all isHeaderNameChar

section Filter

variable (toLowerCase : Text → Text)

/-- `isReservedHeaderName`. -/
def isReservedHeaderName (name : Text) : Bool :=
  let lower := toLowerCase name
  decide (lower ∈ RESERVED_HEADER_NAMES) || RESERVED_HEADER_PREFIXES.any (·.isPrefixOf lower)

/-- `checkHeader`. -/
def checkHeader (name value : Text) : Option CustomHeaderProblem :=
  if !isValidHeaderName name then some .invalid_name
  else if isReservedHeaderName toLowerCase name then some .reserved
  else if value.any isForbiddenValueChar then some .invalid_value
  else if MAX_CUSTOM_HEADER_VALUE_LENGTH < utf16Length value then some .value_too_long
  else none

/-- What the loop of `filterCustomHeaders` holds. -/
structure Filtering where
  kept : List HeaderEntry
  dropped : List DroppedHeader
  seen : List Text
  totalBytes : ℕ
  deriving DecidableEq

/-- Before the first entry. -/
def Filtering.start : Filtering := ⟨[], [], [], 0⟩

/-- `dropped.push`. -/
def Filtering.drop (acc : Filtering) (name : Option Text) (problem : CustomHeaderProblem) : Filtering :=
  { acc with dropped := acc.dropped ++ [⟨name, problem⟩] }

/-- The turn of one entry. -/
def filterTurn (acc : Filtering) (e : HeaderEntry) : Filtering :=
  (checkHeader toLowerCase e.1 e.2).elim
    (let lower := toLowerCase e.1
     if lower ∈ acc.seen then acc.drop (some e.1) .duplicate
     else if MAX_CUSTOM_HEADERS ≤ acc.kept.length then acc.drop (some e.1) .too_many
     else if MAX_CUSTOM_HEADERS_BYTES < acc.totalBytes + entryBytes e then acc.drop (some e.1) .too_large
     else ⟨acc.kept ++ [e], acc.dropped, lower :: acc.seen, acc.totalBytes + entryBytes e⟩)
    fun problem => acc.drop (if problem = .invalid_name then none else some e.1) problem

/-- The loop. -/
def filterEntries (entries : List HeaderEntry) : Filtering :=
  entries.foldl (filterTurn toLowerCase) .start

/-- `filterCustomHeaders`, with `Object.fromEntries`. -/
def filterCustomHeaders (entries : List HeaderEntry) : CustomHeaders × List DroppedHeader :=
  (Table.ofEntries (filterEntries toLowerCase entries).kept, (filterEntries toLowerCase entries).dropped)

/-- A key that is an array index. -/
def isArrayIndex (key : Text) : Bool := isNumeral key && decide (ofDecimal key < 2 ^ 32 - 1)

/-- `Object.entries`: array indices come first, in order, then the other keys as they were added. -/
def objectEntries (o : CustomHeaders) : List HeaderEntry :=
  (o.rows.filter fun e => isArrayIndex e.1).mergeSort (fun a b => decide (ofDecimal a.1 ≤ ofDecimal b.1)) ++
    o.rows.filter fun e => !isArrayIndex e.1

/-- `describeProblem`. -/
def describeProblem (dropped : DroppedHeader) : Text :=
  let name := dropped.name.getD []
  match dropped.problem with
  | .invalid_name => "A custom header name is invalid: use 1 to " ++ decimal MAX_CUSTOM_HEADER_NAME_LENGTH ++
      " printable ASCII characters, without spaces or colons."
  | .invalid_value => "Custom header \"" ++ name ++
      "\" has an invalid value: line breaks and control characters are not allowed."
  | .value_too_long => "Custom header \"" ++ name ++ "\" has a value longer than " ++
      decimal MAX_CUSTOM_HEADER_VALUE_LENGTH ++ " characters."
  | .reserved => "Custom header \"" ++ name ++ "\" is reserved and cannot be set."
  | .duplicate => "Custom header \"" ++ name ++ "\" is set more than once (names are case-insensitive)."
  | .too_many => "At most " ++ decimal MAX_CUSTOM_HEADERS ++ " custom headers are allowed."
  | .too_large => "Custom headers exceed " ++ decimal MAX_CUSTOM_HEADERS_BYTES ++
      " bytes in total (names plus values)."

/-- `InvalidCustomHeaderError`. -/
structure InvalidCustomHeaderError where
  problem : CustomHeaderProblem
  header : Option Text
  message : Text
  deriving DecidableEq

/-- `validateCustomHeaders`. -/
def validateCustomHeaders (headers : CustomHeaders) : Except InvalidCustomHeaderError CustomHeaders :=
  let filtered := filterCustomHeaders toLowerCase (objectEntries headers)
  filtered.2.head?.elim (.ok filtered.1) fun first =>
    .error ⟨first.problem, first.name, describeProblem first⟩

/-- `safeCustomHeaders`. -/
def safeCustomHeaders (headers : Option CustomHeaders) : CustomHeaders :=
  headers.elim Table.empty fun headers => (filterCustomHeaders toLowerCase (objectEntries headers)).1

end Filter

/-! ## What may be kept -/

/-- An entry on its own: a valid name that is not reserved, a value of one line and of bounded length. -/
structure Acceptable (toLowerCase : Text → Text) (e : HeaderEntry) : Prop where
  name_ne : e.1 ≠ []
  name_length : e.1.length ≤ MAX_CUSTOM_HEADER_NAME_LENGTH
  name_char : ∀ c ∈ e.1, 0x21 ≤ c.toNat ∧ c.toNat ≤ 0x7e ∧ c ≠ ':'
  not_reserved : toLowerCase e.1 ∉ RESERVED_HEADER_NAMES ∧
    ∀ p ∈ RESERVED_HEADER_PREFIXES, ¬p <+: toLowerCase e.1
  value_char : ∀ c ∈ e.2, ¬(c.toNat ≤ 0x08 ∨ 0x0a ≤ c.toNat ∧ c.toNat ≤ 0x1f ∨
    0x7f ≤ c.toNat ∧ c.toNat ≤ 0x9f ∨ c = '\u2028' ∨ c = '\u2029')
  value_length : utf16Length e.2 ≤ MAX_CUSTOM_HEADER_VALUE_LENGTH

/-- A set of entries: each acceptable, no two names equal ignoring case, within the caps. -/
structure Allowed (toLowerCase : Text → Text) (kept : List HeaderEntry) : Prop where
  acceptable : ∀ e ∈ kept, Acceptable toLowerCase e
  distinct : (kept.map fun e => toLowerCase e.1).Nodup
  count : kept.length ≤ MAX_CUSTOM_HEADERS
  bytes : (kept.map entryBytes).sum ≤ MAX_CUSTOM_HEADERS_BYTES

/-- An entry that breaks no rule given the entries kept before it. -/
structure Admissible (toLowerCase : Text → Text) (kept : List HeaderEntry) (e : HeaderEntry) : Prop where
  acceptable : Acceptable toLowerCase e
  new : ∀ k ∈ kept, toLowerCase k.1 ≠ toLowerCase e.1
  count : kept.length < MAX_CUSTOM_HEADERS
  bytes : (kept.map entryBytes).sum + entryBytes e ≤ MAX_CUSTOM_HEADERS_BYTES

/-! ## The loop -/

section Loop

variable {toLowerCase : Text → Text} {kept entries : List HeaderEntry} {acc : Filtering} {e : HeaderEntry}
  {name : Text}

theorem isHeaderNameChar_iff {c : Char} :
    isHeaderNameChar c = true ↔ 0x21 ≤ c.toNat ∧ c.toNat ≤ 0x7e ∧ c ≠ ':' := by
  have hcolon : c = ':' ↔ c.toNat = 0x3a := by
    rw [← Char.toNat_inj]
    rfl
  unfold isHeaderNameChar
  simp only [Bool.or_eq_true, Bool.and_eq_true, decide_eq_true_eq, ne_eq, hcolon]
  omega

theorem utf16Length_ascii {s : Text} (h : ∀ c ∈ s, c.toNat ≤ 0x7e) : utf16Length s = s.length := by
  unfold utf16Length
  induction s with
  | nil => rfl
  | cons c s ih =>
    have hc : c.toNat < 0x10000 := by have := h c List.mem_cons_self; omega
    rw [List.map_cons, List.sum_cons, if_pos hc, ih fun d hd => h d (List.mem_cons_of_mem c hd),
      List.length_cons]
    omega

theorem isValidHeaderName_iff : isValidHeaderName name = true ↔ name ≠ [] ∧
    name.length ≤ MAX_CUSTOM_HEADER_NAME_LENGTH ∧
    ∀ c ∈ name, 0x21 ≤ c.toNat ∧ c.toNat ≤ 0x7e ∧ c ≠ ':' := by
  unfold isValidHeaderName
  rw [Bool.and_eq_true, Bool.and_eq_true, decide_eq_true_iff, decide_eq_true_iff, List.all_eq_true]
  simp only [isHeaderNameChar_iff]
  constructor
  · rintro ⟨⟨hlength, hne⟩, hchar⟩
    exact ⟨hne, utf16Length_ascii (fun c hc => (hchar c hc).2.1) ▸ hlength, hchar⟩
  · rintro ⟨hne, hlength, hchar⟩
    exact ⟨⟨(utf16Length_ascii fun c hc => (hchar c hc).2.1).symm ▸ hlength, hne⟩, hchar⟩

theorem isReservedHeaderName_eq_false : isReservedHeaderName toLowerCase name = false ↔
    toLowerCase name ∉ RESERVED_HEADER_NAMES ∧
    ∀ p ∈ RESERVED_HEADER_PREFIXES, ¬p <+: toLowerCase name := by
  unfold isReservedHeaderName
  dsimp only
  rw [Bool.or_eq_false_iff, decide_eq_false_iff_not, List.any_eq_false]
  simp only [List.isPrefixOf_iff_prefix]

theorem isForbiddenValueChar_iff {c : Char} : isForbiddenValueChar c = true ↔ c.toNat ≤ 0x08 ∨
    0x0a ≤ c.toNat ∧ c.toNat ≤ 0x1f ∨ 0x7f ≤ c.toNat ∧ c.toNat ≤ 0x9f ∨ c = '\u2028' ∨ c = '\u2029' := by
  unfold isForbiddenValueChar
  simp only [Bool.or_eq_true, Bool.and_eq_true, decide_eq_true_eq, beq_iff_eq, or_assoc]

theorem checkHeader_eq_none : checkHeader toLowerCase e.1 e.2 = none ↔ Acceptable toLowerCase e := by
  unfold checkHeader
  constructor
  · intro h
    split at h
    · cases h
    · rename_i hname
      split at h
      · cases h
      · rename_i hreserved
        split at h
        · cases h
        · rename_i hvalue
          split at h
          · cases h
          · rename_i hlength
            rw [Bool.not_eq_true', Bool.not_eq_false] at hname
            obtain ⟨hne, hlen, hchar⟩ := isValidHeaderName_iff.mp hname
            rw [Bool.not_eq_true, List.any_eq_false] at hvalue
            exact {
              name_ne := hne
              name_length := hlen
              name_char := hchar
              not_reserved := isReservedHeaderName_eq_false.mp (Bool.not_eq_true _ ▸ hreserved)
              value_char := fun c hc hbad => hvalue c hc (isForbiddenValueChar_iff.mpr hbad)
              value_length := not_lt.mp hlength }
  · intro h
    have hname := isValidHeaderName_iff.mpr ⟨h.name_ne, h.name_length, h.name_char⟩
    have hvalue : e.2.any isForbiddenValueChar = false := List.any_eq_false.mpr fun c hc hbad =>
      h.value_char c hc (isForbiddenValueChar_iff.mp hbad)
    rw [hname, isReservedHeaderName_eq_false.mpr h.not_reserved, hvalue]
    exact if_neg (not_lt.mpr h.value_length)

/-- What the loop counts agrees with what it keeps. -/
structure Filtering.Good (toLowerCase : Text → Text) (acc : Filtering) : Prop where
  seen : ∀ lower, lower ∈ acc.seen ↔ ∃ k ∈ acc.kept, toLowerCase k.1 = lower
  totalBytes : acc.totalBytes = (acc.kept.map entryBytes).sum

theorem Filtering.good_start : Filtering.start.Good toLowerCase :=
  ⟨fun _ => iff_of_false List.not_mem_nil fun ⟨_, h, _⟩ => absurd h List.not_mem_nil, rfl⟩

/-- The state after an entry is kept. -/
def Filtering.keep (toLowerCase : Text → Text) (acc : Filtering) (e : HeaderEntry) : Filtering :=
  ⟨acc.kept ++ [e], acc.dropped, toLowerCase e.1 :: acc.seen, acc.totalBytes + entryBytes e⟩

theorem Filtering.Good.keep (h : acc.Good toLowerCase) : (acc.keep toLowerCase e).Good toLowerCase where
  seen lower := by
    show lower ∈ toLowerCase e.1 :: acc.seen ↔ ∃ k ∈ acc.kept ++ [e], toLowerCase k.1 = lower
    rw [List.mem_cons, h.seen]
    constructor
    · rintro (rfl | ⟨k, hk, rfl⟩)
      · exact ⟨e, List.mem_append_right _ (List.mem_singleton_self e), rfl⟩
      · exact ⟨k, List.mem_append_left _ hk, rfl⟩
    · rintro ⟨k, hk, rfl⟩
      rcases List.mem_append.mp hk with hk | hk
      · exact .inr ⟨k, hk, rfl⟩
      · exact .inl (List.mem_singleton.mp hk ▸ rfl)
  totalBytes := by
    show acc.totalBytes + entryBytes e = ((acc.kept ++ [e]).map entryBytes).sum
    rw [h.totalBytes, List.map_append, List.sum_append, List.map_singleton, List.sum_singleton]

/-- **One entry.** It is kept exactly when it breaks no rule given the entries kept before it. -/
theorem filterTurn_cases (h : acc.Good toLowerCase) (e : HeaderEntry) :
    (Admissible toLowerCase acc.kept e ∧ filterTurn toLowerCase acc e = acc.keep toLowerCase e) ∨
    (¬Admissible toLowerCase acc.kept e ∧ ∃ name problem, filterTurn toLowerCase acc e = acc.drop name problem) := by
  unfold filterTurn
  cases hcheck : checkHeader toLowerCase e.1 e.2 with
  | some problem =>
    refine .inr ⟨fun ha => ?_, _, _, rfl⟩
    rw [checkHeader_eq_none.mpr ha.acceptable] at hcheck
    cases hcheck
  | none =>
    have hacceptable := checkHeader_eq_none.mp hcheck
    rw [Option.elim_none]
    dsimp only
    by_cases hseen : toLowerCase e.1 ∈ acc.seen
    · rw [if_pos hseen]
      refine .inr ⟨fun ha => ?_, _, _, rfl⟩
      obtain ⟨k, hk, heq⟩ := (h.seen _).mp hseen
      exact ha.new k hk heq
    · rw [if_neg hseen]
      by_cases hcount : MAX_CUSTOM_HEADERS ≤ acc.kept.length
      · rw [if_pos hcount]
        exact .inr ⟨fun ha => absurd ha.count (not_lt.mpr hcount), _, _, rfl⟩
      · rw [if_neg hcount]
        by_cases hbytes : MAX_CUSTOM_HEADERS_BYTES < acc.totalBytes + entryBytes e
        · rw [if_pos hbytes]
          refine .inr ⟨fun ha => ?_, _, _, rfl⟩
          rw [h.totalBytes] at hbytes
          exact absurd ha.bytes (not_le.mpr hbytes)
        · rw [if_neg hbytes]
          refine .inl ⟨⟨hacceptable, fun k hk heq => hseen ((h.seen _).mpr ⟨k, hk, heq⟩),
            not_le.mp hcount, ?_⟩, rfl⟩
          rw [← h.totalBytes]
          exact not_lt.mp hbytes

theorem filterTurn_good (h : acc.Good toLowerCase) (e : HeaderEntry) :
    (filterTurn toLowerCase acc e).Good toLowerCase := by
  rcases filterTurn_cases h e with ⟨-, hturn⟩ | ⟨-, name, problem, hturn⟩
  · rw [hturn]
    exact h.keep
  · rw [hturn]
    exact ⟨h.seen, h.totalBytes⟩

theorem Allowed.concat (h : Allowed toLowerCase kept) (he : Admissible toLowerCase kept e) :
    Allowed toLowerCase (kept ++ [e]) where
  acceptable k hk := by
    rcases List.mem_append.mp hk with hk | hk
    · exact h.acceptable k hk
    · exact List.mem_singleton.mp hk ▸ he.acceptable
  distinct := by
    rw [List.map_append, List.map_singleton]
    refine List.Nodup.append h.distinct (List.nodup_singleton _) fun lower hlower hmem => ?_
    obtain ⟨k, hk, rfl⟩ := List.mem_map.mp hlower
    exact he.new k hk (List.mem_singleton.mp hmem)
  count := by
    rw [List.length_append, List.length_singleton]
    exact he.count
  bytes := by
    rw [List.map_append, List.sum_append, List.map_singleton, List.sum_singleton]
    exact he.bytes

theorem Allowed.nil : Allowed toLowerCase [] where
  acceptable _ h := absurd h List.not_mem_nil
  distinct := List.nodup_nil
  count := Nat.zero_le _
  bytes := Nat.zero_le _

/-- An entry of an allowed list is admissible after those before it. -/
theorem Allowed.admissible {rest : List HeaderEntry} (h : Allowed toLowerCase (kept ++ e :: rest)) :
    Admissible toLowerCase kept e where
  acceptable := h.acceptable e (List.mem_append_right _ List.mem_cons_self)
  new k hk heq := by
    have hnodup := h.distinct
    rw [List.map_append, List.nodup_append'] at hnodup
    exact hnodup.2.2 (List.mem_map_of_mem hk) (heq ▸ List.mem_map_of_mem List.mem_cons_self)
  count := by
    have := h.count
    rw [List.length_append, List.length_cons] at this
    omega
  bytes := by
    have := h.bytes
    rw [List.map_append, List.sum_append, List.map_cons, List.sum_cons] at this
    omega

/-- No order of the entries matters to the rules. -/
theorem Allowed.perm {stored : List HeaderEntry} (h : Allowed toLowerCase kept) (hperm : stored.Perm kept) :
    Allowed toLowerCase stored where
  acceptable e he := h.acceptable e (hperm.mem_iff.mp he)
  distinct := (hperm.map _).nodup_iff.mpr h.distinct
  count := hperm.length_eq ▸ h.count
  bytes := (hperm.map entryBytes).sum_eq ▸ h.bytes

/-- **What is kept is allowed.** -/
theorem filterEntries_allowed (toLowerCase : Text → Text) (entries : List HeaderEntry) :
    (filterEntries toLowerCase entries).Good toLowerCase ∧
      Allowed toLowerCase (filterEntries toLowerCase entries).kept := by
  unfold filterEntries
  refine List.foldlRecOn entries (filterTurn toLowerCase)
    (motive := fun acc => acc.Good toLowerCase ∧ Allowed toLowerCase acc.kept)
    ⟨Filtering.good_start, Allowed.nil⟩ fun acc h e _ => ⟨filterTurn_good h.1 e, ?_⟩
  rcases filterTurn_cases h.1 e with ⟨ha, hturn⟩ | ⟨-, name, problem, hturn⟩
  · rw [hturn]
    exact h.2.concat ha
  · rw [hturn]
    exact h.2

/-- **What is allowed is kept.** -/
theorem foldl_filterTurn_of_allowed (hgood : acc.Good toLowerCase)
    (h : Allowed toLowerCase (acc.kept ++ entries)) :
    (entries.foldl (filterTurn toLowerCase) acc).kept = acc.kept ++ entries ∧
      (entries.foldl (filterTurn toLowerCase) acc).dropped = acc.dropped := by
  induction entries generalizing acc with
  | nil => exact ⟨(List.append_nil _).symm, rfl⟩
  | cons e entries ih =>
    rcases filterTurn_cases hgood e with ⟨-, hturn⟩ | ⟨hnot, -⟩
    · rw [List.foldl_cons, hturn]
      have happend : (acc.keep toLowerCase e).kept ++ entries = acc.kept ++ e :: entries := by
        show (acc.kept ++ [e]) ++ entries = _
        rw [List.append_assoc, List.singleton_append]
      rw [← happend] at h ⊢
      exact ih hgood.keep h
    · exact absurd h.admissible hnot

theorem filterEntries_concat (before : List HeaderEntry) (e : HeaderEntry) :
    filterEntries toLowerCase (before ++ [e]) =
      filterTurn toLowerCase (filterEntries toLowerCase before) e := by
  unfold filterEntries
  rw [List.foldl_append]
  rfl

/-- **First come, first kept.** -/
theorem filterEntries_step (before : List HeaderEntry) (e : HeaderEntry) :
    (Admissible toLowerCase (filterEntries toLowerCase before).kept e →
      (filterEntries toLowerCase (before ++ [e])).kept = (filterEntries toLowerCase before).kept ++ [e]) ∧
    (¬Admissible toLowerCase (filterEntries toLowerCase before).kept e →
      (filterEntries toLowerCase (before ++ [e])).kept = (filterEntries toLowerCase before).kept) := by
  rw [filterEntries_concat]
  rcases filterTurn_cases (filterEntries_allowed toLowerCase before).1 e with ⟨ha, hturn⟩ | ⟨hnot, name, problem, hturn⟩
  · exact ⟨fun _ => congrArg Filtering.kept hturn, fun hnot => absurd ha hnot⟩
  · rw [hturn]
    exact ⟨fun ha => absurd ha hnot, fun _ => rfl⟩

/-- Every entry is kept, in its place, or dropped. -/
theorem filterEntries_sublist (toLowerCase : Text → Text) (entries : List HeaderEntry) :
    (filterEntries toLowerCase entries).kept.Sublist entries ∧
      (filterEntries toLowerCase entries).kept.length +
        (filterEntries toLowerCase entries).dropped.length = entries.length := by
  induction entries using List.reverseRecOn with
  | nil => exact ⟨List.Sublist.refl _, rfl⟩
  | append_singleton entries e ih =>
    rw [filterEntries_concat, List.length_append, List.length_singleton]
    rcases filterTurn_cases (filterEntries_allowed toLowerCase entries).1 e with ⟨-, hturn⟩ | ⟨-, name, problem, hturn⟩
    · rw [hturn]
      refine ⟨ih.1.append (List.Sublist.refl [e]), ?_⟩
      show ((filterEntries toLowerCase entries).kept ++ [e]).length +
        (filterEntries toLowerCase entries).dropped.length = _
      rw [List.length_append, List.length_singleton]
      omega
    · rw [hturn]
      refine ⟨ih.1.trans (List.sublist_append_left entries [e]), ?_⟩
      show (filterEntries toLowerCase entries).kept.length +
        ((filterEntries toLowerCase entries).dropped ++ [_]).length = _
      rw [List.length_append, List.length_singleton]
      omega

end Loop

/-! ## The three gates -/

section Gates

variable {toLowerCase : Text → Text} {entries : List HeaderEntry}

theorem objectEntries_perm (o : CustomHeaders) : (objectEntries o).Perm o.rows :=
  ((List.mergeSort_perm _ _).append (List.Perm.refl _)).trans (List.filter_append_perm _ _)

theorem Allowed.nodup (h : Allowed toLowerCase entries) : (entries.map Prod.fst).Nodup := by
  have hmap : entries.map (fun e => toLowerCase e.1) = (entries.map Prod.fst).map toLowerCase := by
    rw [List.map_map]
    rfl
  exact List.Nodup.of_map toLowerCase (hmap ▸ h.distinct)

theorem filterEntries_of_allowed (h : Allowed toLowerCase entries) :
    (filterEntries toLowerCase entries).kept = entries ∧ (filterEntries toLowerCase entries).dropped = [] :=
  foldl_filterTurn_of_allowed Filtering.good_start h

/-- The rows of what is filtered are what was kept. -/
theorem filterCustomHeaders_rows (entries : List HeaderEntry) :
    (filterCustomHeaders toLowerCase entries).1.rows = (filterEntries toLowerCase entries).kept :=
  Table.ofEntries_rows (filterEntries_allowed toLowerCase entries).2.nodup

/-- **A second filter.** An object with allowed entries, in any order, loses none. -/
theorem filterCustomHeaders_of_allowed {o : CustomHeaders} (h : Allowed toLowerCase o.rows) :
    (filterCustomHeaders toLowerCase (objectEntries o)).1.rows = objectEntries o ∧
      (filterCustomHeaders toLowerCase (objectEntries o)).2 = [] := by
  have hallowed := h.perm (objectEntries_perm o)
  rw [filterCustomHeaders_rows]
  exact filterEntries_of_allowed hallowed

theorem safeCustomHeaders_allowed (headers : Option CustomHeaders) :
    Allowed toLowerCase (safeCustomHeaders toLowerCase headers).rows := by
  cases headers with
  | none => exact Allowed.nil
  | some o =>
    have hallowed := (filterEntries_allowed toLowerCase (objectEntries o)).2
    show Allowed toLowerCase (filterCustomHeaders toLowerCase (objectEntries o)).1.rows
    rw [filterCustomHeaders_rows]
    exact hallowed

/-- What the strict gate lets through is everything it was given. -/
theorem validateCustomHeaders_eq_ok {o o' : CustomHeaders}
    (h : validateCustomHeaders toLowerCase o = .ok o') :
    o'.rows = objectEntries o ∧ Allowed toLowerCase o'.rows := by
  have hallowed := (filterEntries_allowed toLowerCase (objectEntries o)).2
  obtain ⟨hsublist, hlength⟩ := filterEntries_sublist toLowerCase (objectEntries o)
  unfold validateCustomHeaders at h
  dsimp only at h
  cases hdropped : (filterCustomHeaders toLowerCase (objectEntries o)).2 with
  | nil =>
    rw [hdropped] at h
    cases h
    have hnone : (filterEntries toLowerCase (objectEntries o)).dropped = [] := hdropped
    rw [hnone, List.length_nil, Nat.add_zero] at hlength
    rw [filterCustomHeaders_rows]
    exact ⟨hsublist.eq_of_length hlength, hallowed⟩
  | cons first more =>
    rw [hdropped] at h
    cases h

/-- The strict gate lets allowed headers through. -/
theorem validateCustomHeaders_of_allowed {o : CustomHeaders} (h : Allowed toLowerCase o.rows) :
    ∃ o', validateCustomHeaders toLowerCase o = .ok o' ∧ o'.rows = objectEntries o := by
  obtain ⟨hrows, hdropped⟩ := filterCustomHeaders_of_allowed h
  refine ⟨_, ?_, hrows⟩
  unfold validateCustomHeaders
  dsimp only
  rw [hdropped]
  rfl

/-- The mailer's gate drops nothing of allowed headers. -/
theorem safeCustomHeaders_of_allowed {o : CustomHeaders} (h : Allowed toLowerCase o.rows) :
    (safeCustomHeaders toLowerCase (some o)).rows = objectEntries o :=
  (filterCustomHeaders_of_allowed h).1

end Gates

end BunMail.Emails
