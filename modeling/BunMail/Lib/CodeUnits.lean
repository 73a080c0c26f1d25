import Mathlib.Data.List.Basic
import Mathlib.Data.List.TakeWhile

/-!
# Strings as code units

A string as the list of its UTF-16 code units: every string is one, also one with half a surrogate
pair, and its length and its indices are those of the list.
-/

/-- A string, as its code units. -/
abbrev CodeUnits := List UInt16

namespace CodeUnits

instance decidableMem (s : CodeUnits) (l : List CodeUnits) : Decidable (s ∈ l) :=
  List.instDecidableMemOfLawfulBEq s l

/-- The code units of a text within the first plane. -/
def of (s : String) : CodeUnits := s.toList.map fun c => UInt16.ofNat c.toNat

/-- `[0-9]`. -/
def isDigit (u : UInt16) : Bool := 0x30 ≤ u && u ≤ 0x39

/-- `[A-Za-z]`. -/
def isLetter (u : UInt16) : Bool := (0x41 ≤ u && u ≤ 0x5a) || (0x61 ≤ u && u ≤ 0x7a)

/-- The lower case of `[A-Z]`. -/
def lower (u : UInt16) : UInt16 := if 0x41 ≤ u ∧ u ≤ 0x5a then u + 0x20 else u

/-- The upper case of `[a-z]`. -/
def upper (u : UInt16) : UInt16 := if 0x61 ≤ u ∧ u ≤ 0x7a then u - 0x20 else u

theorem lower_upper (u : UInt16) : lower (upper u) = lower u := by
  unfold lower upper
  split_ifs <;> grind

theorem upper_lower (u : UInt16) : upper (lower u) = upper u := by
  unfold lower upper
  split_ifs <;> grind

/-- `parts.join(" ")`. -/
def spaced (parts : List CodeUnits) : CodeUnits := [0x20].intercalate parts

theorem length_spaced_cons (s t : CodeUnits) (parts : List CodeUnits) :
    (spaced (s :: t :: parts)).length = s.length + 1 + (spaced (t :: parts)).length := by
  unfold spaced
  rw [List.intercalate_cons_cons, List.length_append, List.length_append, List.length_singleton]

end CodeUnits
