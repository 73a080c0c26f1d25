import BunMail.Lib.LowerCase

/-!
# DNS messages

The wire format of a DNS message, as relations between its bytes and what they say: names with
compression pointers, resource records, the character-strings of a TXT record, and the chain of CNAME
records that starts at a name.  A name is its labels, each with one character a byte and its ASCII
letters lowercased, as names are compared.
-/

namespace Dns

open Text

abbrev Bytes := List UInt8

variable (m : Bytes)

/-- Two bytes, the high one first. -/
def u16 (i : ℕ) : Option ℕ := do
  let hi ← m[i]?
  let lo ← m[i + 1]?
  some (256 * hi.toNat + lo.toNat)

/-- Four bytes, the highest one first. -/
def u32 (i : ℕ) : Option ℕ := do
  let hi ← u16 m i
  let lo ← u16 m (i + 2)
  some (65536 * hi + lo)

/-- The bytes from `start` up to `stop`, one character a byte. -/
def text (start stop : ℕ) : Text := ((m.drop start).take (stop - start)).map fun b => Char.ofNat b.toNat

/-! ## Names -/

/-- The labels at `at_` end before `next` and are read through `jumps` pointers, each to an earlier
place past the header. -/
inductive NameAt : ℕ → ℕ → List Text → ℕ → Prop
  | root {at_ : ℕ} (h : m[at_]? = some 0) : NameAt 0 at_ [] (at_ + 1)
  | label {jumps at_ next : ℕ} {length : UInt8} {labels : List Text} (h : m[at_]? = some length)
      (hpos : 0 < length.toNat) (hlen : length.toNat ≤ 63)
      (hend : at_ + 1 + length.toNat ≤ m.length)
      (rest : NameAt jumps (at_ + 1 + length.toNat) labels next) :
      NameAt jumps at_ (asciiLower (text m (at_ + 1) (at_ + 1 + length.toNat)) :: labels) next
  | pointer {jumps at_ next : ℕ} {hi lo : UInt8} {labels : List Text} (h : m[at_]? = some hi)
      (hhi : 192 ≤ hi.toNat) (hlo : m[at_ + 1]? = some lo)
      (hback : 256 * (hi.toNat - 192) + lo.toNat < at_)
      (hhead : 12 ≤ 256 * (hi.toNat - 192) + lo.toNat)
      (rest : NameAt jumps (256 * (hi.toNat - 192) + lo.toNat) labels next) :
      NameAt (jumps + 1) at_ labels (at_ + 2)

/-- The length of a name without compression. -/
def wireLength : List Text → ℕ
  | [] => 1
  | label :: labels => label.length + 1 + wireLength labels

/-- A name of at most 255 bytes, read through at most `limit` pointers. -/
def Name (limit at_ : ℕ) (labels : List Text) (next : ℕ) : Prop :=
  ∃ jumps ≤ limit, NameAt m jumps at_ labels next ∧ wireLength labels ≤ 255

/-! ## Records -/

/-- The fixed fields of a resource record, and where its RDATA lies. -/
structure Record where
  owner : List Text
  type : ℕ
  rrClass : ℕ
  ttl : ℕ
  rdataStart : ℕ
  rdataEnd : ℕ

/-- The record at `start`. -/
def RecordAt (limit start : ℕ) (r : Record) : Prop :=
  ∃ next rdlength, Name m limit start r.owner next ∧ u16 m next = some r.type ∧
    u16 m (next + 2) = some r.rrClass ∧ u32 m (next + 4) = some r.ttl ∧
    u16 m (next + 8) = some rdlength ∧ r.rdataStart = next + 10 ∧
    r.rdataEnd = next + 10 + rdlength ∧ r.rdataEnd ≤ m.length

/-- Records one after the other. -/
inductive RecordsAt (limit : ℕ) : ℕ → List Record → ℕ → Prop
  | nil {at_ : ℕ} : RecordsAt limit at_ [] at_
  | cons {at_ stop : ℕ} {r : Record} {rs : List Record} (h : RecordAt m limit at_ r)
      (rest : RecordsAt limit r.rdataEnd rs stop) : RecordsAt limit at_ (r :: rs) stop

/-- The character-strings that fill the bytes up to `stop`. -/
inductive Strings (stop : ℕ) : ℕ → List Text → Prop
  | nil : Strings stop stop []
  | cons {at_ : ℕ} {length : UInt8} {strings : List Text} (h : m[at_]? = some length)
      (hend : at_ + 1 + length.toNat ≤ stop)
      (rest : Strings stop (at_ + 1 + length.toNat) strings) :
      Strings stop at_ (text m (at_ + 1) (at_ + 1 + length.toNat) :: strings)

/-- The RDATA of a TXT record: at least one string. -/
def TxtData (r : Record) (strings : List Text) : Prop :=
  strings ≠ [] ∧ Strings m r.rdataEnd r.rdataStart strings

/-! ## CNAME chains -/

def TYPE_CNAME : ℕ := 5

def TYPE_TXT : ℕ := 16

def TYPE_OPT : ℕ := 41

def CLASS_IN : ℕ := 1

/-- A CNAME record of class IN. -/
def IsCname (r : Record) : Prop := r.type = TYPE_CNAME ∧ r.rrClass = CLASS_IN

instance (r : Record) : Decidable (IsCname r) := inferInstanceAs (Decidable (_ ∧ _))

/-- The target of a CNAME record fills its RDATA. -/
def Target (limit : ℕ) (r : Record) (target : List Text) : Prop :=
  Name m limit r.rdataStart target r.rdataEnd

/-- A CNAME record leads from one name to the other. -/
def Link (limit : ℕ) (answers : List Record) (owner target : List Text) : Prop :=
  ∃ r ∈ answers, IsCname r ∧ r.owner = owner ∧ Target m limit r target

/-- The names that so many links lead to. -/
inductive Reach (limit : ℕ) (answers : List Record) (asked : List Text) : ℕ → List Text → Prop
  | asked : Reach limit answers asked 0 asked
  | link {n : ℕ} {name target : List Text} (h : Reach limit answers asked n name)
      (hlink : Link m limit answers name target) : Reach limit answers asked (n + 1) target

/-- CNAME records are well-formed: each has a target, and no name has two. -/
structure Linked (limit : ℕ) (answers : List Record) : Prop where
  target : ∀ r ∈ answers, IsCname r → ∃ target, Target m limit r target
  unique : ∀ {owner target target' : List Text}, Link m limit answers owner target →
    Link m limit answers owner target' → target = target'

/-- After at most `links` links the chain is at its end, or at a name it has been at. -/
def ChainWithin (limit links : ℕ) (answers : List Record) (asked : List Text) : Prop :=
  ∃ n ≤ links, ∃ name, Reach m limit answers asked n name ∧
    ((∀ target, ¬ Link m limit answers name target) ∨
      ∃ k < n, Reach m limit answers asked k name)

section Chains

variable {m} {limit : ℕ} {answers : List Record} {asked : List Text}

theorem link_cons {r : Record} {rs : List Record} {owner target : List Text} :
    Link m limit (r :: rs) owner target ↔
      (IsCname r ∧ r.owner = owner ∧ Target m limit r target) ∨ Link m limit rs owner target := by
  unfold Link
  constructor
  · rintro ⟨r', hr', h⟩
    rcases List.mem_cons.mp hr' with rfl | hr'
    · exact .inl h
    · exact .inr ⟨r', hr', h⟩
  · rintro (h | ⟨r', hr', h⟩)
    · exact ⟨r, List.mem_cons_self, h⟩
    · exact ⟨r', List.mem_cons_of_mem _ hr', h⟩

/-- What leads on from a name leads on from the names before it. -/
theorem Reach.at_le {n k : ℕ} {name : List Text} (h : Reach m limit answers asked k name) (hn : n < k) :
    ∃ b target, Reach m limit answers asked n b ∧ Link m limit answers b target := by
  induction h with
  | asked => omega
  | @link k b target hb hlink ih =>
    rcases Nat.lt_succ_iff_lt_or_eq.mp hn with hlt | rfl
    · exact ih hlt
    · exact ⟨b, target, hb, hlink⟩

theorem Reach.unique (hunique : Linked m limit answers) {n : ℕ} {a b : List Text}
    (ha : Reach m limit answers asked n a) (hb : Reach m limit answers asked n b) : a = b := by
  induction ha generalizing b with
  | asked =>
    cases hb
    rfl
  | @link n a target ha hlink ih =>
    cases hb with
    | link hb hlink' =>
      obtain rfl := ih hb
      exact hunique.unique hlink hlink'

end Chains

end Dns
