import Mathlib.Data.Int.Notation
import BunMail.Lib.Table

/-!
# Keys that expire

The keys of a store of values, each with the time it expires at.  `gone t now` says whether a key
that expires at `t` is gone at `now`; a key that is gone is not seen by any command, and a command
that writes it starts anew.
-/

universe u v

namespace Keyspace

/-- A value, and when its key expires. -/
structure Expiring (V : Type v) where
  value : V
  expiresAt : Option ℕ

/-- The keys with their values. -/
abbrev Keys (κ : Type u) (V : Type v) := Table (Prod.fst : κ × Expiring V → κ)

variable {κ : Type u} {V : Type v} [DecidableEq κ] (gone : ℕ → ℕ → Bool)

/-- What is seen of a key. -/
def seen? (keys : Keys κ V) (key : κ) (now : ℕ) : Option (Expiring V) :=
  (keys.get? key).filter fun e => !e.expiresAt.elim false (gone · now)

/-- The value of a key. -/
def value? (keys : Keys κ V) (key : κ) (now : ℕ) : Option V := (seen? gone keys key now).map (·.value)

/-- `PTTL`. -/
def pttl (keys : Keys κ V) (key : κ) (now : ℕ) : ℤ :=
  (seen? gone keys key now).elim (-2) fun e => e.expiresAt.elim (-1) fun t => (t : ℤ) - now

/-- A command that writes the value; the key keeps its expiry. -/
def write (keys : Keys κ V) (key : κ) (now : ℕ) (f : Option V → V) : Keys κ V :=
  keys.put key ⟨f (value? gone keys key now), (seen? gone keys key now).bind (·.expiresAt)⟩

/-- `PEXPIRE`. -/
def pexpire (keys : Keys κ V) (key : κ) (now ms : ℕ) : Keys κ V :=
  (seen? gone keys key now).elim keys fun e => keys.put key ⟨e.value, some (now + ms)⟩

/-- `DEL`. -/
def del (keys : Keys κ V) (key : κ) : Keys κ V := keys.deleteWhere fun e => decide (e.1 = key)

variable {gone} {keys : Keys κ V} {key k : κ} {now x : ℕ}

theorem get?_write (f : Option V → V) : (write gone keys key now f).get? k = if k = key then
    some ⟨f (value? gone keys key now), (seen? gone keys key now).bind (·.expiresAt)⟩
      else keys.get? k := Table.get?_put

theorem seen?_write_ne (f : Option V → V) (h : k ≠ key) :
    seen? gone (write gone keys key now f) k x = seen? gone keys k x := by
  rw [seen?, seen?, get?_write, if_neg h]

theorem seen?_write_self (f : Option V → V) : seen? gone (write gone keys key now f) key now =
    some ⟨f (value? gone keys key now), (seen? gone keys key now).bind (·.expiresAt)⟩ := by
  rw [seen?, get?_write, if_pos rfl, Option.filter_some, if_pos]
  -- what kept its expiry was seen
  cases he : seen? gone keys key now with
  | none => rfl
  | some e => exact (Option.filter_eq_some_iff.mp he).2

theorem get?_pexpire {ms : ℕ} {e : Expiring V} (h : seen? gone keys key now = some e) :
    (pexpire gone keys key now ms).get? k =
      if k = key then some ⟨e.value, some (now + ms)⟩ else keys.get? k := by
  rw [pexpire, h]
  exact Table.get?_put

theorem get?_pexpire_ne {ms : ℕ} (h : k ≠ key) :
    (pexpire gone keys key now ms).get? k = keys.get? k := by
  unfold pexpire
  cases seen? gone keys key now with
  | none => rfl
  | some e => exact Table.get?_put_ne h

theorem get?_del : (del keys key).get? k = if k = key then none else keys.get? k := by
  rw [del, Table.get?_deleteWhere]
  cases keys.get? k with
  | none => simp
  | some e => by_cases h : k = key <;> simp [h, Option.filter_some]

end Keyspace
