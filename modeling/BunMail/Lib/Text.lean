import Mathlib

/-!
# Text and instants as the scripts see them

An instant is a number of milliseconds.  Text is a list of characters.  The operations are those of
the script language's strings: white space and length are its own (length counts UTF-16 units), an
index is replaced by the part it cuts off, and case folding is a parameter of what uses it.
-/

/-- Milliseconds since the epoch. -/
abbrev Time := ℕ

/-- Text, as its characters. -/
abbrev Text := List Char

instance : Coe String Text := ⟨String.toList⟩

namespace Text

/-- Membership is decided by comparing texts. -/
instance decidableMem (s : Text) (l : List Text) : Decidable (s ∈ l) :=
  List.instDecidableMemOfLawfulBEq s l

/-- Pairs of texts are compared the same way. -/
instance decidableMemPairs (p : Text × Text) (l : List (Text × Text)) : Decidable (p ∈ l) :=
  List.instDecidableMemOfLawfulBEq p l

/-- And so are lists of texts. -/
instance decidableMemLists (s : List Text) (l : List (List Text)) : Decidable (s ∈ l) :=
  List.instDecidableMemOfLawfulBEq s l

/-- White space and line terminators: what `\s` matches and `trim` removes. -/
def isSpace (c : Char) : Bool :=
  let n := c.toNat
  (9 ≤ n && n ≤ 13) || n == 0x20 || n == 0xA0 || n == 0x1680 || (0x2000 ≤ n && n ≤ 0x200A) ||
    n == 0x2028 || n == 0x2029 || n == 0x202F || n == 0x205F || n == 0x3000 || n == 0xFEFF

/-- `s.trim()`. -/
def trim (s : Text) : Text := (s.dropWhile isSpace).rdropWhile isSpace

/-- `s.length`: UTF-16 code units. -/
def utf16Length (s : Text) : ℕ := (s.map fun c => if c.toNat < 0x10000 then 1 else 2).sum

/-- The length in UTF-8 bytes. -/
def utf8Length (s : Text) : ℕ := (s.map Char.utf8Size).sum

/-- `s.slice(0, n)`; a character of two units that would be cut in two is left out. -/
def sliceUnits : ℕ → Text → Text
  | _, [] => []
  | n, c :: s =>
    let units := if c.toNat < 0x10000 then 1 else 2
    if units ≤ n then c :: sliceUnits (n - units) s else []

/-- `s.slice(s.lastIndexOf(c) + 1)`: what follows the last `c`, all of `s` without one. -/
def afterLast (c : Char) (s : Text) : Text := s.rtakeWhile (· ≠ c)

/-- `parts.join(sep)`. -/
def join (sep : Text) : List Text → Text
  | [] => []
  | [s] => s
  | s :: t :: rest => s ++ sep ++ join sep (t :: rest)

/-- A whole number in decimal, as a template literal writes it. -/
def decimal (n : ℕ) : Text := Nat.toDigits 10 n

theorem decimal_injective : Function.Injective decimal := by
  intro m n h
  have := congrArg (fun l => Nat.ofDigitChars 10 l 0) h
  simpa only [decimal, Nat.ofDigitChars_ten_toDigits] using this

theorem isDigit_of_mem_decimal {n : ℕ} {c : Char} (h : c ∈ decimal n) : c.isDigit :=
  Nat.isDigit_of_mem_toDigits (by decide) (by decide) h

/-- The order by code point, which is that of the UTF-8 bytes. -/
def bytesLe : Text → Text → Bool
  | [], _ => true
  | _ :: _, [] => false
  | a :: as, b :: bs => decide (a.toNat < b.toNat) || a.toNat == b.toNat && bytesLe as bs

theorem bytesLe_cons {a b : Char} {as bs : Text} :
    bytesLe (a :: as) (b :: bs) = true ↔
      a.toNat < b.toNat ∨ a.toNat = b.toNat ∧ bytesLe as bs = true := by
  rw [bytesLe, Bool.or_eq_true, Bool.and_eq_true, decide_eq_true_eq, beq_iff_eq]

theorem bytesLe_total : ∀ s t : Text, bytesLe s t = true ∨ bytesLe t s = true
  | [], _ => .inl (by cases ‹Text› <;> rfl)
  | _ :: _, [] => .inr rfl
  | a :: as, b :: bs => by
    rw [bytesLe_cons, bytesLe_cons]
    rcases lt_trichotomy a.toNat b.toNat with h | h | h
    · exact .inl (.inl h)
    · exact (bytesLe_total as bs).imp (fun hle => .inr ⟨h, hle⟩) fun hle => .inr ⟨h.symm, hle⟩
    · exact .inr (.inl h)

theorem bytesLe_trans : ∀ {s t u : Text}, bytesLe s t = true → bytesLe t u = true →
    bytesLe s u = true
  | [], _, u => fun _ _ => by cases u <;> rfl
  | _ :: _, [], _ => fun h => (by cases h)
  | _ :: _, _ :: _, [] => fun _ h => (by cases h)
  | a :: as, b :: bs, c :: cs => by
    rw [bytesLe_cons, bytesLe_cons, bytesLe_cons]
    intro hab hbc
    rcases hab with hab | ⟨hab, has⟩ <;> rcases hbc with hbc | ⟨hbc, hbs⟩
    · exact .inl (by omega)
    · exact .inl (by omega)
    · exact .inl (by omega)
    · exact .inr ⟨by omega, bytesLe_trans has hbs⟩

end Text
