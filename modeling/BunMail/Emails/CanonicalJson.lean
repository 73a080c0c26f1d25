import BunMail.Lib.Text
import BunMail.Lib.CodeUnits
import BunMail.Lib.Joined

/-!
# Canonical JSON

`canonicalJson` of `idempotency.service.ts`, the text whose hash tells whether a retry is the request it
repeats.  What `JSON.stringify` writes for a string and for a number is a parameter, with its documented
properties.  The text of a value is read back from its place, one value at a time, so that it tells the
value up to the order of the members of its objects.
-/

namespace BunMail.Emails.CanonicalJson

open CodeUnits

/-! ## Values -/

/-- A JSON value; a member of an object may be undefined. -/
inductive Json (ν : Type) : Type
  | null
  | bool (b : Bool)
  | number (n : ν)
  | string (s : CodeUnits)
  | array (items : List (Json ν))
  | object (members : List (CodeUnits × Option (Json ν)))

variable {ν : Type}

/-- The inside of a quoted string: a quote or a backslash only after a backslash. -/
inductive Escaped : CodeUnits → Prop
  | nil : Escaped []
  | unit {u : UInt16} {s : CodeUnits} : u ≠ 0x22 → u ≠ 0x5c → Escaped s → Escaped (u :: s)
  | escape {u : UInt16} {s : CodeUnits} : Escaped s → Escaped (0x5c :: u :: s)

/-- A quoted and escaped string. -/
def Quoted (text : CodeUnits) : Prop := ∃ body, Escaped body ∧ text = 0x22 :: (body ++ [0x22])

/-- A bracket, a brace, a comma, a colon or a quote. -/
def isStructural (u : UInt16) : Bool :=
  u == 0x5b || u == 0x5d || u == 0x7b || u == 0x7d || u == 0x2c || u == 0x3a || u == 0x22

/-- What `JSON.stringify` writes for strings and for finite numbers, whose values are given: the two
zeros have the same one. -/
structure Stringify (value : ν → ℚ) where
  string : CodeUnits → CodeUnits
  number : ν → CodeUnits
  string_inj : ∀ s t, string s = string t → s = t
  string_quoted : ∀ s, Quoted (string s)
  number_inj : ∀ m n, number m = number n ↔ value m = value n
  number_plain : ∀ n, ∀ u ∈ number n, isStructural u = false
  number_head : ∀ n, ∃ u rest, number n = u :: rest ∧ (isDigit u = true ∨ u = 0x2d)

/-! ## The text -/

section Text

variable {value : ν → ℚ} (json : Stringify value)

/-- The members by name; the names are compared by their units. -/
def sortByName {α : Type} (members : List (CodeUnits × α)) : List (CodeUnits × α) :=
  members.mergeSort fun a b => decide (a.1 ≤ b.1)

/-- A member of an object. -/
def memberText (member : CodeUnits × CodeUnits) : CodeUnits := json.string member.1 ++ 0x3a :: member.2

mutual

def canonicalJson : Json ν → CodeUnits
  | .null => of "null"
  | .bool b => if b then of "true" else of "false"
  | .number n => json.number n
  | .string s => json.string s
  | .array items => 0x5b :: ([0x2c].intercalate (canonicalItems items) ++ [0x5d])
  | .object members =>
    0x7b :: ([0x2c].intercalate ((sortByName (canonicalMembers members)).map (memberText json)) ++ [0x7d])

def canonicalItems : List (Json ν) → List CodeUnits
  | [] => []
  | item :: items => canonicalJson item :: canonicalItems items

/-- The members that are defined, with their texts. -/
def canonicalMembers : List (CodeUnits × Option (Json ν)) → List (CodeUnits × CodeUnits)
  | [] => []
  | (name, some member) :: members => (name, canonicalJson member) :: canonicalMembers members
  | (_, none) :: members => canonicalMembers members

end

end Text

/-! ## Equal values -/

mutual

/-- Every object has distinct names. -/
def Distinct : Json ν → Prop
  | .array items => DistinctItems items
  | .object members => (members.map Prod.fst).Nodup ∧ DistinctMembers members
  | _ => True

def DistinctItems : List (Json ν) → Prop
  | [] => True
  | item :: items => Distinct item ∧ DistinctItems items

def DistinctMembers : List (CodeUnits × Option (Json ν)) → Prop
  | [] => True
  | (_, some member) :: members => Distinct member ∧ DistinctMembers members
  | (_, none) :: members => DistinctMembers members

end

mutual

/-- Equal up to the order of the members of objects; a member that is undefined is none. -/
def Same (value : ν → ℚ) : Json ν → Json ν → Prop
  | .null, .null => True
  | .bool b, .bool b' => b = b'
  | .number n, .number n' => value n = value n'
  | .string s, .string s' => s = s'
  | .array items, .array items' => SameItems value items items'
  | .object members, .object members' => SameMembers value members members' ∧
      ∀ name member', (name, some member') ∈ members' → ∃ member, (name, some member) ∈ members
  | _, _ => False

def SameItems (value : ν → ℚ) : List (Json ν) → List (Json ν) → Prop
  | [], [] => True
  | item :: items, item' :: items' => Same value item item' ∧ SameItems value items items'
  | _, _ => False

/-- Every member that is defined has one of its name that is the same. -/
def SameMembers (value : ν → ℚ) :
    List (CodeUnits × Option (Json ν)) → List (CodeUnits × Option (Json ν)) → Prop
  | [], _ => True
  | (name, some member) :: members, members' =>
    (∃ member', (name, some member') ∈ members' ∧ Same value member member') ∧
      SameMembers value members members'
  | (_, none) :: members, members' => SameMembers value members members'

end

/-! ## Lists of values -/

/-- Induction over the values in a value. -/
theorem Json.rec_values {P : Json ν → Prop} (hnull : P .null) (hbool : ∀ b, P (.bool b))
    (hnumber : ∀ n, P (.number n)) (hstring : ∀ s, P (.string s))
    (harray : ∀ items, (∀ item ∈ items, P item) → P (.array items))
    (hobject : ∀ members, (∀ name member, (name, some member) ∈ members → P member) → P (.object members)) :
    ∀ a, P a
  | .null => hnull
  | .bool b => hbool b
  | .number n => hnumber n
  | .string s => hstring s
  | .array items => harray items fun item _ => rec_values hnull hbool hnumber hstring harray hobject item
  | .object members => hobject members fun _ member _ =>
      rec_values hnull hbool hnumber hstring harray hobject member
termination_by a => sizeOf a
decreasing_by
  · have hitem := List.sizeOf_lt_of_mem ‹item ∈ items›
    simp only [Json.array.sizeOf_spec]
    omega
  · have hmember := List.sizeOf_lt_of_mem ‹(_, some member) ∈ members›
    simp only [Json.object.sizeOf_spec, Prod.mk.sizeOf_spec, Option.some.sizeOf_spec] at hmember ⊢
    omega

/-- The members that are defined. -/
def defined (members : List (CodeUnits × Option (Json ν))) : List (CodeUnits × Json ν) :=
  members.filterMap fun member => member.2.map fun content => (member.1, content)

theorem mem_defined {members : List (CodeUnits × Option (Json ν))} {member : CodeUnits × Json ν} :
    member ∈ defined members ↔ (member.1, some member.2) ∈ members := by
  unfold defined
  rw [List.mem_filterMap]
  constructor
  · rintro ⟨⟨name, content⟩, hmem, heq⟩
    cases content with
    | none => cases heq
    | some content =>
      obtain rfl := Option.some.inj heq
      exact hmem
  · intro hmem
    exact ⟨_, hmem, rfl⟩

theorem names_defined (members : List (CodeUnits × Option (Json ν))) :
    ((defined members).map Prod.fst).Sublist (members.map Prod.fst) := by
  induction members with
  | nil => exact List.Sublist.refl _
  | cons member members ih =>
    obtain ⟨name, _ | content⟩ := member
    · exact ih.cons _
    · exact ih.cons_cons _

theorem distinct_array {items : List (Json ν)} : Distinct (.array items) ↔ ∀ item ∈ items, Distinct item := by
  rw [Distinct]
  induction items with
  | nil => simp [DistinctItems]
  | cons item items ih => rw [DistinctItems, ih, List.forall_mem_cons]

theorem distinctMembers_iff {members : List (CodeUnits × Option (Json ν))} :
    DistinctMembers members ↔ ∀ name member, (name, some member) ∈ members → Distinct member := by
  induction members with
  | nil => simp [DistinctMembers]
  | cons member members ih =>
    obtain ⟨name, _ | content⟩ := member
    · rw [DistinctMembers, ih]
      simp
    · rw [DistinctMembers, ih]
      constructor
      · rintro ⟨hcontent, hmembers⟩ other content' hmem
        rcases List.mem_cons.mp hmem with heq | hmem
        · obtain ⟨-, rfl⟩ : other = name ∧ content' = content := by simpa using heq
          exact hcontent
        · exact hmembers _ _ hmem
      · intro hall
        exact ⟨hall _ _ List.mem_cons_self, fun _ _ hmem => hall _ _ (List.mem_cons_of_mem _ hmem)⟩

section Equal

variable {value : ν → ℚ}

theorem same_array {items items' : List (Json ν)} :
    Same value (.array items) (.array items') ↔ List.Forall₂ (Same value) items items' := by
  rw [Same]
  induction items generalizing items' with
  | nil => cases items' <;> simp [SameItems]
  | cons item items ih =>
    cases items' with
    | nil => simp [SameItems]
    | cons item' items' => rw [SameItems, ih, List.forall₂_cons]

theorem sameMembers_iff {members members' : List (CodeUnits × Option (Json ν))} :
    SameMembers value members members' ↔ ∀ name member, (name, some member) ∈ members →
      ∃ member', (name, some member') ∈ members' ∧ Same value member member' := by
  induction members with
  | nil => simp [SameMembers]
  | cons member members ih =>
    obtain ⟨name, _ | content⟩ := member
    · rw [SameMembers, ih]
      simp
    · rw [SameMembers, ih]
      constructor
      · rintro ⟨hcontent, hmembers⟩ other content' hmem
        rcases List.mem_cons.mp hmem with heq | hmem
        · obtain ⟨rfl, rfl⟩ : other = name ∧ content' = content := by simpa using heq
          exact hcontent
        · exact hmembers _ _ hmem
      · intro hall
        exact ⟨hall _ _ List.mem_cons_self, fun _ _ hmem => hall _ _ (List.mem_cons_of_mem _ hmem)⟩

end Equal

/-! ## The members of an object in order -/

section Sorted

variable {α β : Type} {members members' : List (CodeUnits × α)}

theorem mem_sortByName {member : CodeUnits × α} : member ∈ sortByName members ↔ member ∈ members :=
  List.mem_mergeSort

theorem sortByName_map (f : α → β) (members : List (CodeUnits × α)) :
    sortByName (members.map fun member => (member.1, f member.2)) =
      (sortByName members).map fun member => (member.1, f member.2) := by
  unfold sortByName
  rw [List.map_mergeSort]
  exact fun _ _ _ _ => rfl

theorem sorted_sortByName (members : List (CodeUnits × α)) :
    (sortByName members).Pairwise fun a b => a.1 ≤ b.1 := by
  have hsorted : (sortByName members).Pairwise fun a b => decide (a.1 ≤ b.1) = true := by
    refine List.pairwise_mergeSort ?_ ?_ members
    · intro a b c hab hbc
      exact decide_eq_true (List.le_trans (of_decide_eq_true hab) (of_decide_eq_true hbc))
    · intro a b
      rw [Bool.or_eq_true]
      exact (List.le_total a.1 b.1).imp decide_eq_true decide_eq_true
  exact hsorted.imp of_decide_eq_true

/-- Two members of one name are one. -/
theorem eq_of_name (hnames : (members.map Prod.fst).Nodup) {member member' : CodeUnits × α}
    (hmem : member ∈ members) (hmem' : member' ∈ members) (h : member.1 = member'.1) : member = member' :=
  List.inj_on_of_nodup_map hnames hmem hmem' h

/-- The order of the members does not matter. -/
theorem sortByName_congr (hnames : (members.map Prod.fst).Nodup) (hnames' : (members'.map Prod.fst).Nodup)
    (h : ∀ member, member ∈ members ↔ member ∈ members') : sortByName members = sortByName members' := by
  have hperm : members.Perm members' :=
    (List.perm_ext_iff_of_nodup hnames.of_map hnames'.of_map).mpr h
  have hsorted : (sortByName members).Perm (sortByName members') :=
    ((List.mergeSort_perm _ _).trans hperm).trans (List.mergeSort_perm _ _).symm
  refine List.Perm.eq_of_pairwise ?_ (sorted_sortByName members) (sorted_sortByName members') hsorted
  intro a b ha hb hab hba
  exact eq_of_name hnames (mem_sortByName.mp ha) ((h b).mpr (mem_sortByName.mp hb)) (List.le_antisymm hab hba)

end Sorted

/-! ## The text, value by value -/

section Read

variable {value : ν → ℚ} (json : Stringify value)

/-- A member of an object, its value not yet written. -/
def fieldText (member : CodeUnits × Json ν) : CodeUnits :=
  json.string member.1 ++ 0x3a :: canonicalJson json member.2

theorem canonicalItems_eq (items : List (Json ν)) : canonicalItems json items = items.map (canonicalJson json) := by
  induction items with
  | nil => rfl
  | cons item items ih => rw [canonicalItems, ih, List.map_cons]

theorem canonicalMembers_eq (members : List (CodeUnits × Option (Json ν))) :
    canonicalMembers json members =
      (defined members).map fun member => (member.1, canonicalJson json member.2) := by
  induction members with
  | nil => rfl
  | cons member members ih =>
    obtain ⟨name, _ | content⟩ := member
    · rw [canonicalMembers, ih]
      rfl
    · rw [canonicalMembers, ih]
      rfl

theorem canonicalJson_array (items : List (Json ν)) :
    canonicalJson json (.array items) =
      0x5b :: ([0x2c].intercalate (items.map (canonicalJson json)) ++ [0x5d]) := by
  rw [canonicalJson, canonicalItems_eq]

theorem canonicalJson_object (members : List (CodeUnits × Option (Json ν))) :
    canonicalJson json (.object members) =
      0x7b :: ([0x2c].intercalate ((sortByName (defined members)).map (fieldText json)) ++ [0x7d]) := by
  rw [canonicalJson, canonicalMembers_eq, sortByName_map, List.map_map]
  rfl

/-! ## What a text starts with -/

/-- What a value is. -/
inductive Kind : Type
  | null
  | bool
  | number
  | string
  | array
  | object

def Json.kind : Json ν → Kind
  | .null => .null
  | .bool _ => .bool
  | .number _ => .number
  | .string _ => .string
  | .array _ => .array
  | .object _ => .object

/-- What a text that starts with the unit is of. -/
def kindOf (u : UInt16) : Kind :=
  if u = 0x6e then .null
  else if u = 0x74 ∨ u = 0x66 then .bool
  else if u = 0x22 then .string
  else if u = 0x5b then .array
  else if u = 0x7b then .object
  else .number

/-- What comes after a value: a comma, or the end of the array or the object. -/
def isEnd (u : UInt16) : Bool := u == 0x2c || u == 0x5d || u == 0x7d

theorem kindOf_number {u : UInt16} (h : isDigit u = true ∨ u = 0x2d) :
    kindOf u = .number ∧ isEnd u = false := by
  unfold isDigit at h
  unfold kindOf isEnd
  constructor
  · split_ifs <;> grind
  · grind

theorem canonicalJson_head (a : Json ν) :
    ∃ u rest, canonicalJson json a = u :: rest ∧ kindOf u = a.kind ∧ isEnd u = false := by
  cases a with
  | null => exact ⟨_, _, canonicalJson.eq_1 json, rfl, rfl⟩
  | bool b =>
    cases b
    · exact ⟨_, _, canonicalJson.eq_2 json false, rfl, rfl⟩
    · exact ⟨_, _, canonicalJson.eq_2 json true, rfl, rfl⟩
  | number n =>
    obtain ⟨u, rest, htext, hu⟩ := json.number_head n
    exact ⟨u, rest, by rw [canonicalJson, htext], kindOf_number hu⟩
  | string s =>
    obtain ⟨body, -, htext⟩ := json.string_quoted s
    exact ⟨0x22, body ++ [0x22], by rw [canonicalJson, htext], rfl, rfl⟩
  | array items => exact ⟨_, _, canonicalJson_array json items, rfl, rfl⟩
  | object members => exact ⟨_, _, canonicalJson_object json members, rfl, rfl⟩

variable {json} {a b : Json ν} {r r' : CodeUnits}

theorem isStructural_of_isEnd {u : UInt16} (h : isEnd u = true) : isStructural u = true := by
  unfold isEnd at h
  unfold isStructural
  grind

theorem kind_eq (h : canonicalJson json a ++ r = canonicalJson json b ++ r') : a.kind = b.kind := by
  obtain ⟨u, rest, htext, hu, -⟩ := canonicalJson_head json a
  obtain ⟨u', rest', htext', hu', -⟩ := canonicalJson_head json b
  rw [htext, htext'] at h
  rw [← hu, ← hu', (List.cons.inj h).1]

/-! ## Strings -/

/-- An escaped text is read back up to the quote that ends it. -/
theorem Escaped.inj {s s' : CodeUnits} (hs : Escaped s) (hs' : Escaped s')
    (h : s ++ 0x22 :: r = s' ++ 0x22 :: r') : s = s' ∧ r = r' := by
  induction hs generalizing s' with
  | nil =>
    cases hs' with
    | nil => exact ⟨rfl, (List.cons.inj h).2⟩
    | unit hquote _ _ => exact absurd (List.cons.inj h).1.symm hquote
    | escape _ => exact absurd (List.cons.inj h).1 (by decide)
  | unit hquote hslash _ ih =>
    cases hs' with
    | nil => exact absurd (List.cons.inj h).1 hquote
    | unit _ _ hs' =>
      obtain ⟨rfl, htail⟩ := List.cons.inj h
      obtain ⟨rfl, hrest⟩ := ih hs' htail
      exact ⟨rfl, hrest⟩
    | escape _ => exact absurd (List.cons.inj h).1 hslash
  | escape _ ih =>
    cases hs' with
    | nil => exact absurd (List.cons.inj h).1 (by decide)
    | unit _ hslash _ => exact absurd (List.cons.inj h).1.symm hslash
    | escape hs' =>
      obtain ⟨rfl, htail⟩ := List.cons.inj (List.cons.inj h).2
      obtain ⟨rfl, hrest⟩ := ih hs' htail
      exact ⟨rfl, hrest⟩

theorem string_read {s s' : CodeUnits} (h : json.string s ++ r = json.string s' ++ r') : s = s' ∧ r = r' := by
  obtain ⟨body, hbody, htext⟩ := json.string_quoted s
  obtain ⟨body', hbody', htext'⟩ := json.string_quoted s'
  have hopened : body ++ 0x22 :: r = body' ++ 0x22 :: r' := by
    rw [htext, htext', List.cons_append, List.cons_append, List.append_assoc, List.append_assoc] at h
    exact (List.cons.inj h).2
  obtain ⟨hsame, hrest⟩ := hbody.inj hbody' hopened
  exact ⟨json.string_inj s s' (by rw [htext, htext', hsame]), hrest⟩

theorem number_read {m n : ν} (hr : Stops (isEnd · = true) r) (hr' : Stops (isEnd · = true) r')
    (h : json.number m ++ r = json.number n ++ r') : value m = value n ∧ r = r' := by
  obtain ⟨htext, hrest⟩ := append_inj_of_stops (json.number_plain m) (json.number_plain n)
    (fun u hu => isStructural_of_isEnd (hr u hu)) (fun u hu => isStructural_of_isEnd (hr' u hu)) h
  exact ⟨(json.number_inj m n).mp htext, hrest⟩

/-! ## Reading a value back -/

theorem null_read (h : canonicalJson json .null ++ r = canonicalJson json b ++ r') :
    Same value .null b ∧ r = r' := by
  have hkind := kind_eq h
  cases b with
  | null => exact ⟨by rw [Same]; trivial, List.append_cancel_left h⟩
  | _ => cases hkind

theorem bool_read {v : Bool} (h : canonicalJson json (.bool v) ++ r = canonicalJson json b ++ r') :
    Same value (.bool v) b ∧ r = r' := by
  have hkind := kind_eq h
  cases b with
  | bool w =>
    rw [canonicalJson, canonicalJson] at h
    cases v with
    | true =>
      cases w with
      | true => exact ⟨by rw [Same], List.append_cancel_left h⟩
      | false => exact absurd (List.cons.inj h).1 (by decide)
    | false =>
      cases w with
      | true => exact absurd (List.cons.inj h).1 (by decide)
      | false => exact ⟨by rw [Same], List.append_cancel_left h⟩
  | _ => cases hkind

/-- What is read back as a value, wherever it is followed by what may follow a value. -/
def ReadBack (json : Stringify value) (a : Json ν) : Prop :=
  ∀ b r r', Stops (isEnd · = true) r → Stops (isEnd · = true) r' →
    canonicalJson json a ++ r = canonicalJson json b ++ r' → Same value a b ∧ r = r'

theorem readBack_array {items : List (Json ν)} (hread : ∀ item ∈ items, ReadBack json item) :
    ReadBack json (.array items) := by
  intro b r r' hr hr' h
  have hkind := kind_eq h
  cases b with
  | array items' =>
    rw [canonicalJson_array, canonicalJson_array, List.cons_append, List.cons_append, List.append_assoc,
      List.append_assoc] at h
    have hitems : List.Forall₂ (Same value) items items' ∧ r = r' := by
      refine joined_inj (isEnd · = true) rfl rfl (by decide) ?_ ?_ (List.cons.inj h).2
      · intro item
        obtain ⟨u, rest, htext, -, hgoes⟩ := canonicalJson_head json item
        exact ⟨u, rest, htext, by rw [hgoes]; exact Bool.false_ne_true⟩
      · intro item hitem item' _ s s' hs hs' hsame
        exact hread item hitem item' s s' hs hs' hsame
    exact ⟨same_array.mpr hitems.1, hitems.2⟩
  | _ => cases hkind

/-- A member of the one name and the same value. -/
def SameField (value : ν → ℚ) (member member' : CodeUnits × Json ν) : Prop :=
  member.1 = member'.1 ∧ Same value member.2 member'.2

theorem same_object_of_fields {members members' : List (CodeUnits × Option (Json ν))}
    (h : List.Forall₂ (SameField value) (sortByName (defined members)) (sortByName (defined members'))) :
    Same value (.object members) (.object members') := by
  rw [Same, sameMembers_iff]
  constructor
  · intro name member hmem
    have hin : (name, member) ∈ sortByName (defined members) := mem_sortByName.mpr (mem_defined.mpr hmem)
    obtain ⟨⟨name', member'⟩, hin', rfl, hsame⟩ := exists_partner h hin
    exact ⟨member', mem_defined.mp (mem_sortByName.mp hin'), hsame⟩
  · intro name member' hmem
    have hin : (name, member') ∈ sortByName (defined members') := mem_sortByName.mpr (mem_defined.mpr hmem)
    obtain ⟨⟨name', member⟩, hin', rfl, -⟩ := exists_partner h.flip hin
    exact ⟨member, mem_defined.mp (mem_sortByName.mp hin')⟩

theorem readBack_object {members : List (CodeUnits × Option (Json ν))}
    (hread : ∀ name member, (name, some member) ∈ members → ReadBack json member) :
    ReadBack json (.object members) := by
  intro b r r' hr hr' h
  have hkind := kind_eq h
  cases b with
  | object members' =>
    rw [canonicalJson_object, canonicalJson_object, List.cons_append, List.cons_append, List.append_assoc,
      List.append_assoc] at h
    have hfields : List.Forall₂ (SameField value) (sortByName (defined members))
        (sortByName (defined members')) ∧ r = r' := by
      refine joined_inj (isEnd · = true) rfl rfl (by decide) ?_ ?_ (List.cons.inj h).2
      · intro member
        obtain ⟨body, -, htext⟩ := json.string_quoted member.1
        exact ⟨0x22, _, by rw [fieldText, htext]; rfl, by decide⟩
      · intro member hmember member' _ s s' hs hs' hsame
        unfold fieldText at hsame
        rw [List.append_assoc, List.append_assoc] at hsame
        obtain ⟨hname, hcontent⟩ := string_read hsame
        obtain ⟨hcontent, hrest⟩ := hread _ _ (mem_defined.mp (mem_sortByName.mp hmember)) _ s s' hs hs'
          (List.cons.inj hcontent).2
        exact ⟨⟨hname, hcontent⟩, hrest⟩
    exact ⟨same_object_of_fields hfields.1, hfields.2⟩
  | _ => cases hkind

/-- **A value is read back from its text**, up to the order of the members of its objects. -/
theorem readBack (a : Json ν) : ReadBack json a := by
  induction a using Json.rec_values with
  | hnull => exact fun b r r' _ _ h => null_read h
  | hbool v => exact fun b r r' _ _ h => bool_read h
  | hnumber n =>
    intro b r r' hr hr' h
    have hkind := kind_eq h
    cases b with
    | number m =>
      rw [canonicalJson, canonicalJson] at h
      obtain ⟨hvalue, hrest⟩ := number_read hr hr' h
      exact ⟨by rw [Same]; exact hvalue, hrest⟩
    | _ => cases hkind
  | hstring s =>
    intro b r r' _ _ h
    have hkind := kind_eq h
    cases b with
    | string s' =>
      rw [canonicalJson, canonicalJson] at h
      obtain ⟨hsame, hrest⟩ := string_read h
      exact ⟨by rw [Same]; exact hsame, hrest⟩
    | _ => cases hkind
  | harray items hitems => exact readBack_array hitems
  | hobject members hmembers => exact readBack_object hmembers

/-! ## Equal values have equal texts -/

theorem names_canonicalMembers {members : List (CodeUnits × Option (Json ν))}
    (hnames : (members.map Prod.fst).Nodup) : ((canonicalMembers json members).map Prod.fst).Nodup := by
  rw [canonicalMembers_eq, List.map_map]
  exact hnames.sublist (names_defined members)

theorem mem_canonicalMembers {members : List (CodeUnits × Option (Json ν))} {name text : CodeUnits} :
    (name, text) ∈ canonicalMembers json members ↔
      ∃ member, (name, some member) ∈ members ∧ canonicalJson json member = text := by
  rw [canonicalMembers_eq, List.mem_map]
  constructor
  · rintro ⟨⟨other, member⟩, hmem, heq⟩
    obtain ⟨rfl, rfl⟩ := Prod.mk.inj heq
    exact ⟨member, mem_defined.mp hmem, rfl⟩
  · rintro ⟨member, hmem, rfl⟩
    exact ⟨(name, member), mem_defined.mpr hmem, rfl⟩

/-- A name has one member. -/
theorem eq_of_member {members : List (CodeUnits × Option (Json ν))} (hnames : (members.map Prod.fst).Nodup)
    {name : CodeUnits} {member member' : Json ν} (hmem : (name, some member) ∈ members)
    (hmem' : (name, some member') ∈ members) : member = member' :=
  Option.some.inj (Prod.mk.inj (eq_of_name hnames hmem hmem' rfl)).2

theorem object_text_eq {members members' : List (CodeUnits × Option (Json ν))}
    (hnames : (members.map Prod.fst).Nodup) (hnames' : (members'.map Prod.fst).Nodup)
    (htext : ∀ name member, (name, some member) ∈ members →
      ∃ member', (name, some member') ∈ members' ∧ canonicalJson json member = canonicalJson json member')
    (hback : ∀ name member', (name, some member') ∈ members' → ∃ member, (name, some member) ∈ members) :
    canonicalJson json (.object members) = canonicalJson json (.object members') := by
  have hsorted : sortByName (canonicalMembers json members) = sortByName (canonicalMembers json members') := by
    refine sortByName_congr (names_canonicalMembers hnames) (names_canonicalMembers hnames') ?_
    rintro ⟨name, text⟩
    rw [mem_canonicalMembers, mem_canonicalMembers]
    constructor
    · rintro ⟨member, hmem, rfl⟩
      obtain ⟨member', hmem', heq⟩ := htext name member hmem
      exact ⟨member', hmem', heq.symm⟩
    · rintro ⟨member', hmem', rfl⟩
      obtain ⟨member, hmem⟩ := hback name member' hmem'
      obtain ⟨other, hother, heq⟩ := htext name member hmem
      obtain rfl := eq_of_member hnames' hother hmem'
      exact ⟨member, hmem, heq⟩
  rw [canonicalJson, canonicalJson, hsorted]

theorem canonicalJson_congr (a : Json ν) : ∀ b : Json ν, Distinct a → Distinct b → Same value a b →
    canonicalJson json a = canonicalJson json b := by
  induction a using Json.rec_values with
  | hnull =>
    intro b _ _ h
    cases b with
    | null => rfl
    | _ => simp [Same] at h
  | hbool v =>
    intro b _ _ h
    cases b with
    | bool w =>
      rw [Same] at h
      rw [h]
    | _ => simp [Same] at h
  | hnumber n =>
    intro b _ _ h
    cases b with
    | number m =>
      rw [Same] at h
      rw [canonicalJson, canonicalJson, (json.number_inj n m).mpr h]
    | _ => simp [Same] at h
  | hstring s =>
    intro b _ _ h
    cases b with
    | string t =>
      rw [Same] at h
      rw [h]
    | _ => simp [Same] at h
  | harray items ih =>
    intro b ha hb h
    cases b with
    | array items' =>
      rw [distinct_array] at ha hb
      have htexts : items.map (canonicalJson json) = items'.map (canonicalJson json) :=
        map_eq_of_related (same_array.mp h) fun item hitem item' hitem' hsame =>
          ih item hitem item' (ha item hitem) (hb item' hitem') hsame
      rw [canonicalJson_array, canonicalJson_array, htexts]
    | _ => simp [Same] at h
  | hobject members ih =>
    intro b ha hb h
    cases b with
    | object members' =>
      rw [Distinct, distinctMembers_iff] at ha hb
      rw [Same, sameMembers_iff] at h
      refine object_text_eq ha.1 hb.1 ?_ h.2
      intro name member hmem
      obtain ⟨member', hmem', hsame⟩ := h.1 name member hmem
      exact ⟨member', hmem',
        ih name member hmem member' (ha.2 name member hmem) (hb.2 name member' hmem') hsame⟩
    | _ => simp [Same] at h

end Read

/-- **The text tells the value, and only the value**: texts are equal exactly when the values are, up to
the order of the members of objects, a member that is undefined being none. -/
theorem canonicalJson_eq_iff {value : ν → ℚ} (json : Stringify value) {a b : Json ν} (ha : Distinct a)
    (hb : Distinct b) : canonicalJson json a = canonicalJson json b ↔ Same value a b := by
  constructor
  · intro h
    have hread : canonicalJson json a ++ [] = canonicalJson json b ++ [] →
        Same value a b ∧ ([] : CodeUnits) = [] := readBack a b [] [] (stops_nil _) (stops_nil _)
    rw [List.append_nil, List.append_nil] at hread
    exact (hread h).1
  · exact canonicalJson_congr a b ha hb

/-! ## A writer of plain strings and whole numbers -/

/-- A backslash before every quote and every backslash. -/
def escapeUnit (u : UInt16) : CodeUnits := if u = 0x22 ∨ u = 0x5c then [0x5c, u] else [u]

theorem escaped_flatMap (s : CodeUnits) : Escaped (s.flatMap escapeUnit) := by
  induction s with
  | nil => exact .nil
  | cons u s ih =>
    rw [List.flatMap_cons]
    unfold escapeUnit
    split_ifs with hspecial
    · exact .escape ih
    · push Not at hspecial
      exact .unit hspecial.1 hspecial.2 ih

theorem flatMap_escapeUnit_inj : ∀ s t : CodeUnits, s.flatMap escapeUnit = t.flatMap escapeUnit → s = t := by
  intro s
  induction s with
  | nil =>
    intro t h
    cases t with
    | nil => rfl
    | cons v t =>
      rw [List.flatMap_cons] at h
      unfold escapeUnit at h
      split_ifs at h <;> exact nomatch h
  | cons u s ih =>
    intro t h
    cases t with
    | nil =>
      rw [List.flatMap_cons] at h
      unfold escapeUnit at h
      split_ifs at h <;> exact nomatch h
    | cons v t =>
      have hrest : u = v ∧ s.flatMap escapeUnit = t.flatMap escapeUnit := by
        rw [List.flatMap_cons, List.flatMap_cons] at h
        generalize s.flatMap escapeUnit = x at h ⊢
        generalize t.flatMap escapeUnit = y at h ⊢
        unfold escapeUnit at h
        split_ifs at h with hu hv hv
        · exact ⟨(List.cons.inj (List.cons.inj h).2).1, (List.cons.inj (List.cons.inj h).2).2⟩
        · exact absurd (.inr (List.cons.inj h).1.symm) hv
        · exact absurd (.inr (List.cons.inj h).1) hu
        · exact List.cons.inj h
      rw [hrest.1, ih t hrest.2]

/-- The text of a whole number. -/
def digits (n : ℕ) : CodeUnits := (Text.decimal n).map fun c => UInt16.ofNat c.toNat

theorem toNat_digit {c : Char} (h : c.isDigit = true) :
    0x30 ≤ c.toNat ∧ c.toNat ≤ 0x39 ∧ (UInt16.ofNat c.toNat).toNat = c.toNat := by
  have hrange : 0x30 ≤ c.toNat ∧ c.toNat ≤ 0x39 := by
    unfold Char.isDigit at h
    rw [Bool.and_eq_true, decide_eq_true_iff, decide_eq_true_iff] at h
    exact ⟨UInt32.le_iff_toNat_le.mp h.1, UInt32.le_iff_toNat_le.mp h.2⟩
  refine ⟨hrange.1, hrange.2, ?_⟩
  rw [UInt16.toNat_ofNat', Nat.mod_eq_of_lt]
  omega

theorem isDigit_of_mem_digits {n : ℕ} {u : UInt16} (h : u ∈ digits n) : isDigit u = true := by
  obtain ⟨c, hc, rfl⟩ := List.mem_map.mp h
  obtain ⟨hlow, hhigh, hunit⟩ := toNat_digit (Text.isDigit_of_mem_decimal hc)
  unfold isDigit
  rw [Bool.and_eq_true, decide_eq_true_iff, decide_eq_true_iff, UInt16.le_iff_toNat_le,
    UInt16.le_iff_toNat_le, hunit]
  exact ⟨hlow, hhigh⟩

theorem digits_injective : Function.Injective digits := by
  intro m n h
  have hback : ∀ k, (digits k).map UInt16.toNat = (Text.decimal k).map Char.toNat := by
    intro k
    unfold digits
    rw [List.map_map]
    exact List.map_congr_left fun c hc => (toNat_digit (Text.isDigit_of_mem_decimal hc)).2.2
  have hchars : (Text.decimal m).map Char.toNat = (Text.decimal n).map Char.toNat := by
    rw [← hback, ← hback, h]
  have hinj : Function.Injective Char.toNat := fun _ _ => Char.toNat_inj.mp
  exact Text.decimal_injective (List.map_injective_iff.mpr hinj hchars)

theorem isStructural_digit {u : UInt16} (h : isDigit u = true) : isStructural u = false := by
  unfold isDigit at h
  unfold isStructural
  grind

/-- Plain strings, and whole numbers below 10^21, as `JSON.stringify` writes them. -/
def plain : Stringify fun n : ℕ => (n : ℚ) where
  string s := 0x22 :: (s.flatMap escapeUnit ++ [0x22])
  number := digits
  string_inj s t h := flatMap_escapeUnit_inj s t (List.append_cancel_right (List.cons.inj h).2)
  string_quoted s := ⟨_, escaped_flatMap s, rfl⟩
  number_inj m n := digits_injective.eq_iff.trans Nat.cast_inj.symm
  number_plain n u hu := isStructural_digit (isDigit_of_mem_digits hu)
  number_head n := by
    obtain ⟨u, rest, htext⟩ : ∃ u rest, digits n = u :: rest := by
      refine List.exists_cons_of_ne_nil ?_
      unfold digits
      rw [Ne, List.map_eq_nil_iff]
      exact Nat.toDigits_ne_nil
    exact ⟨u, rest, htext, .inl (isDigit_of_mem_digits (n := n) (htext ▸ List.mem_cons_self))⟩

/-- A body with two members, one of them an undefined one more. -/
def sample : Json ℕ :=
  .object [(of "to", some (.array [.string (of "a\"b")])), (of "html", none), (of "__proto__", some (.number 7))]

/-- The same with its members in the other order. -/
def reordered : Json ℕ :=
  .object [(of "__proto__", some (.number 7)), (of "to", some (.array [.string (of "a\"b")]))]

theorem canonicalJson_eq_iff_sample :
    Distinct sample ∧ Distinct reordered ∧ canonicalJson plain sample = canonicalJson plain reordered := by
  have hsample : Distinct sample := by
    unfold sample
    simp only [Distinct, DistinctMembers, DistinctItems]
    decide +kernel
  have hreordered : Distinct reordered := by
    unfold reordered
    simp only [Distinct, DistinctMembers, DistinctItems]
    decide +kernel
  refine ⟨hsample, hreordered, (canonicalJson_eq_iff plain hsample hreordered).mpr ?_⟩
  unfold sample reordered
  rw [Same]
  constructor
  · simp only [SameMembers]
    exact ⟨⟨_, List.mem_cons_of_mem _ List.mem_cons_self, by simp [Same, SameItems]⟩,
      ⟨_, List.mem_cons_self, by simp [Same]⟩, trivial⟩
  · rintro name member' hmem
    rcases List.mem_cons.mp hmem with heq | hmem
    · obtain rfl := (Prod.mk.inj heq).1
      exact ⟨_, List.mem_cons_of_mem _ (List.mem_cons_of_mem _ List.mem_cons_self)⟩
    · obtain rfl := (Prod.mk.inj (List.mem_singleton.mp hmem)).1
      exact ⟨_, List.mem_cons_self⟩

end BunMail.Emails.CanonicalJson
