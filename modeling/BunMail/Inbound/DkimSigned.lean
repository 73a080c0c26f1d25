import Mathlib.Logic.Function.Basic
import BunMail.Inbound.DkimHeader

/-!
# What a DKIM signature covers

The header fields `h=` selects, from the bottom up, and the data of their canonical forms, of
`dkim-verifier-canonical.service.ts`.
-/

namespace BunMail.Inbound.DkimCanonical

open CodeUnits Lines

/-! ## The code -/

/-- The first segment of the tag `b` ends at its `=`. -/
def emptyTag : List CodeUnits → List CodeUnits
  | [] => []
  | segment :: segments =>
    match cut? [0x3d] segment with
    | none => segment :: emptyTag segments
    | some (name, _) =>
      if trimFws name = of "b" then (name ++ [0x3d]) :: segments else segment :: emptyTag segments

def emptySignatureValue (field : CodeUnits) : CodeUnits :=
  match cut? [0x3a] field with
  | none => [0x3b].intercalate (emptyTag (field.splitOn 0x3b))
  | some (before, after) => before ++ 0x3a :: [0x3b].intercalate (emptyTag (after.splitOn 0x3b))

/-- `byName`, with an empty list where there is none. -/
def byName (fields : List HeaderField) (name : CodeUnits) : List HeaderField :=
  fields.filter (·.name = name)

/-- Every name takes the last field left of its list. -/
def selectLast (lists : CodeUnits → List HeaderField) : List CodeUnits → List HeaderField
  | [] => []
  | name :: names =>
    match (lists name).getLast? with
    | none => selectLast lists names
    | some field => field :: selectLast (Function.update lists name (lists name).dropLast) names

def selectHeaders (fields : List HeaderField) (names : List CodeUnits) : List HeaderField :=
  selectLast (byName fields) names

/-- A header field as its form has it. -/
def Canonicalization.header : Canonicalization → CodeUnits → CodeUnits
  | .simple => id
  | .relaxed => relaxedHeader

/-- `Buffer.from(text, "latin1")`. -/
def latin1 (text : CodeUnits) : List UInt8 := text.map UInt16.toUInt8

def signedHeaderData (fields : List HeaderField) (signatureField : HeaderField)
    (headerCanon : Canonicalization) (signedHeaders : List CodeUnits) : List UInt8 :=
  let selected := selectHeaders fields signedHeaders
  latin1 (selected.flatMap (fun field => headerCanon.header field.raw ++ crlf) ++
    emptySignatureValue (headerCanon.header signatureField.raw))

/-! ## The selected fields -/

variable {lists : CodeUnits → List HeaderField} {fields : List HeaderField} {names : List CodeUnits}
  {name : CodeUnits} {field : HeaderField}

/-- The fields of a name are selected from the bottom up, as often as it is listed. -/
theorem filter_selectLast (h : ∀ name, ∀ field ∈ lists name, field.name = name) (names : List CodeUnits)
    (name : CodeUnits) : (selectLast lists names).filter (·.name = name) =
      (lists name).reverse.take (names.count name) := by
  induction names generalizing lists with
  | nil => rw [List.count_nil, List.take_zero]; rfl
  | cons first names ih =>
    rw [selectLast]
    cases hlast : (lists first).getLast? with
    | none =>
      have hnone : lists first = [] := List.getLast?_eq_none_iff.mp hlast
      dsimp only
      rw [ih h]
      by_cases hname : first = name
      · rw [← hname, hnone]
        simp
      · rw [List.count_cons_of_ne hname]
    | some field =>
      have hfield := List.mem_of_getLast? hlast
      have hsplit : lists first = (lists first).dropLast ++ [field] := by
        obtain ⟨front, hfront⟩ := List.getLast?_eq_some_iff.mp hlast
        rw [hfront, List.dropLast_concat]
      have hkept : ∀ n, ∀ f ∈ Function.update lists first (lists first).dropLast n, f.name = n := by
        intro n f hf
        by_cases hn : n = first
        · subst hn
          rw [Function.update_self] at hf
          exact h n f (List.dropLast_subset _ hf)
        · rw [Function.update_of_ne hn] at hf
          exact h n f hf
      dsimp only
      by_cases hname : first = name
      · subst hname
        rw [List.filter_cons_of_pos (by simpa using h first field hfield), ih hkept, Function.update_self,
          List.count_cons_self, hsplit, List.dropLast_concat, List.reverse_append]
        rfl
      · rw [List.filter_cons_of_neg, ih hkept, Function.update_of_ne (Ne.symm hname),
          List.count_cons_of_ne hname]
        rw [h first field hfield]
        simpa using hname

theorem filter_selectHeaders (fields : List HeaderField) (names : List CodeUnits) (name : CodeUnits) :
    (selectHeaders fields names).filter (·.name = name) =
      (byName fields name).reverse.take (names.count name) :=
  filter_selectLast (fun _ _ hfield => of_decide_eq_true (List.mem_filter.mp hfield).2) names name

theorem mem_selectHeaders (h : field ∈ selectHeaders fields names) : field ∈ fields ∧ field.name ∈ names := by
  have hsame : field ∈ (selectHeaders fields names).filter (·.name = field.name) :=
    List.mem_filter.mpr ⟨h, decide_eq_true rfl⟩
  rw [filter_selectHeaders] at hsame
  refine ⟨(List.mem_filter.mp (List.mem_reverse.mp (List.mem_of_mem_take hsame))).1, ?_⟩
  by_contra hnone
  rw [List.count_eq_zero.mpr hnone, List.take_zero] at hsame
  exact absurd hsame List.not_mem_nil

end BunMail.Inbound.DkimCanonical
