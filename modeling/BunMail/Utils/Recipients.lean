import BunMail.Lib.Table
import BunMail.Lib.Text

/-!
# Recipients of an email

`to`, `cc` and `bcc` are comma-separated text.  `parseRecipients` keeps the pieces that look like
an address, one for each lowercased address, and `groupByDomain` files them under their
lowercased domain.
-/

namespace BunMail.Recipients

/-- `MAX_ADDRESS_LENGTH`. -/
def MAX_ADDRESS_LENGTH : ℕ := 254

/-- The class `[^\s@,<>"]` of the local part. -/
def localChar (c : Char) : Bool := !Text.isSpace c && !(c ∈ ['@', ',', '<', '>', '"'])

/-- `EMAIL_RE`: a local part, one `@`, and at least two nonempty labels.  No label has a dot, and
neither side has another `@`, so the match is the split at both. -/
def EMAIL_RE (s : Text) : Bool :=
  match s.splitOn '@' with
  | [localPart, domain] =>
    localPart ≠ [] && localPart.all localChar &&
      (let labels := domain.splitOn '.'
       2 ≤ labels.length && labels.all fun label => label ≠ [] && label.all localChar)
  | _ => false

/-- `RecipientKind`. -/
inductive RecipientKind
  | to_ | cc | bcc
  deriving DecidableEq, Repr

structure Recipient where
  kind : RecipientKind
  address : Text
  domain : Text
  deriving DecidableEq

section Parse

variable (toLowerCase : Text → Text)

/-- The lowercased domain of an address. -/
def domainOf (address : Text) : Text := toLowerCase (Text.afterLast '@' address)

/-- Recipients by lowercased address, in insertion order. -/
abbrev ByLower := Table fun r : Recipient => toLowerCase r.address

/-- Files one piece, unless it is no address or its lowercased address is already there. -/
def ingestPiece (kind : RecipientKind) (byLower : ByLower toLowerCase) (piece : Text) :
    ByLower toLowerCase :=
  let trimmed := Text.trim piece
  if trimmed = [] ∨ MAX_ADDRESS_LENGTH < Text.utf16Length trimmed then byLower
  else if !EMAIL_RE trimmed then byLower
  else byLower.upsert ⟨kind, trimmed, domainOf toLowerCase trimmed⟩ id fun _ _ => rfl

/-- The local `ingest` of `parseRecipients`; an absent field has no piece. -/
def ingest (kind : RecipientKind) (byLower : ByLower toLowerCase) (raw : Option Text) :
    ByLower toLowerCase :=
  match raw with
  | none => byLower
  | some text => (text.splitOn ',').foldl (ingestPiece toLowerCase kind) byLower

/-- The recipients of the three fields: `to`, then `cc`, then `bcc`, first occurrence wins. -/
def byLowerOf (to_ : Text) (cc bcc : Option Text) : ByLower toLowerCase :=
  ingest toLowerCase .bcc
    (ingest toLowerCase .cc (ingest toLowerCase .to_ Table.empty (some to_)) cc) bcc

def parseRecipients (to_ : Text) (cc bcc : Option Text) : List Recipient :=
  (byLowerOf toLowerCase to_ cc bcc).rows

/-- Recipients by domain, in first-seen order. -/
def groupByDomain (recipients : List Recipient) : Table (Prod.fst : Text × List Recipient → Text) :=
  Table.groupBy Recipient.domain recipients

/-- The lowercased recipients in index order. -/
def recipientOrder (to_ : Text) (cc bcc : Option Text) : List Text :=
  (parseRecipients toLowerCase to_ cc bcc).map fun r => toLowerCase r.address

/-! ## What the parser gives -/

variable {toLowerCase} {to_ : Text} {cc bcc : Option Text}

/-- Every recipient carries the lowercased domain of its address. -/
def Filed (byLower : ByLower toLowerCase) : Prop :=
  ∀ r ∈ byLower.rows, r.domain = domainOf toLowerCase r.address

theorem filed_ingestPiece {kind : RecipientKind} {byLower : ByLower toLowerCase} {piece : Text}
    (h : Filed byLower) : Filed (ingestPiece toLowerCase kind byLower piece) := by
  unfold ingestPiece
  dsimp only
  split_ifs
  · exact h
  · exact h
  · intro r hr
    rcases Table.mem_upsert _ hr with ⟨hr, _⟩ | ⟨_, rfl | ⟨r₀, hr₀, _, rfl⟩⟩
    · exact h r hr
    · rfl
    · exact h _ hr₀

theorem filed_ingest {kind : RecipientKind} {byLower : ByLower toLowerCase} {raw : Option Text}
    (h : Filed byLower) : Filed (ingest toLowerCase kind byLower raw) := by
  unfold ingest
  cases raw with
  | none => exact h
  | some text =>
    dsimp only
    induction text.splitOn ',' generalizing byLower with
    | nil => exact h
    | cons piece pieces ih => exact ih (filed_ingestPiece h)

theorem domain_of_mem_parseRecipients {r : Recipient}
    (h : r ∈ parseRecipients toLowerCase to_ cc bcc) : r.domain = domainOf toLowerCase r.address := by
  have hempty : Filed (Table.empty : ByLower toLowerCase) := fun r hr => (by cases hr)
  exact filed_ingest (filed_ingest (filed_ingest hempty)) r h

/-- No two recipients differ by case only. -/
theorem nodup_recipientOrder : (recipientOrder toLowerCase to_ cc bcc).Nodup :=
  (byLowerOf toLowerCase to_ cc bcc).unique

end Parse

example : (parseRecipients id "x@a.b, y@a.b,,z@c.d"  none (some "x@a.b")).map (·.address) =
    ["x@a.b".toList, "y@a.b".toList, "z@c.d".toList] := by decide

end BunMail.Recipients
