import BunMail.Lib.Table
import BunMail.Lib.Text

/-!
# Read committed transactions

Transactions run statement by statement over one committed state.  What a transaction has done so
far is its phase: the phase gives the row locks it holds and its uncommitted writes, which nobody
else sees.  A statement that needs a lock held in a conflicting mode waits: its step leaves
everything as it is.  A commit applies the writes and releases the locks, a rollback drops both.

Every statement reads what is committed when it starts.  One that has to wait for a row takes two
steps: the first keeps what the statement read when it started, the second is granted the lock and
reads the locked row again.
-/

namespace Transactions

/-- The strengths of a row lock. -/
inductive Mode
  | keyShare | share | noKeyUpdate | update
  deriving DecidableEq, Repr

/-- The conflict table of the row locks. -/
def Mode.conflicts : Mode → Mode → Bool
  | .keyShare, .update | .update, .keyShare => true
  | .keyShare, _ | _, .keyShare => false
  | .share, .share => false
  | _, _ => true

theorem Mode.conflicts_comm (m n : Mode) : m.conflicts n = n.conflicts m := by
  cases m <;> cases n <;> rfl

/-- The lock keeps its row as it is. -/
def Mode.pins : Mode → Bool
  | .keyShare => false
  | .share | .noKeyUpdate | .update => true

/-- The lock lets its holder change the row. -/
def Mode.changes : Mode → Bool
  | .keyShare | .share => false
  | .noKeyUpdate | .update => true

theorem Mode.conflicts_of_pins {m n : Mode} (hm : m.pins = true) (hn : n.changes = true) :
    m.conflicts n = true := by
  cases m <;> cases n <;> simp_all [pins, changes, conflicts]

/-- The committed state, and the phase of every transaction so far. -/
structure Store (δ π : Type) where
  db : δ
  txs : Table (Prod.fst : ℕ × π → ℕ)

namespace Store

variable {δ π κ : Type} [DecidableEq κ] (locks : π → List (κ × Mode)) (writes : π → δ → δ)

/-- Nothing runs. -/
def init (db : δ) : Store δ π := ⟨db, Table.empty⟩

/-- The phase of the transaction `t`, if it has started. -/
def phase? (s : Store δ π) (t : ℕ) : Option π := s.txs.get? t

/-- The transaction `t` is in the phase `p`. -/
def put (s : Store δ π) (t : ℕ) (p : π) : Store δ π := { s with txs := s.txs.put t p }

/-- No transaction but `t` holds a lock that conflicts with one of `ls`. -/
def grants (s : Store δ π) (t : ℕ) (ls : List (κ × Mode)) : Bool :=
  s.txs.rows.all fun e =>
    e.1 == t || (locks e.2).all fun l => ls.all fun l' => !(l.1 == l'.1 && l.2.conflicts l'.2)

/-- The transaction `t` goes on to the phase `p` once its locks are granted. -/
def enter (s : Store δ π) (t : ℕ) (p : π) : Store δ π :=
  if s.grants locks t (locks p) then s.put t p else s

/-- The writes of `t`, in the phase `p`, become the committed state; `t` ends in the phase `q`. -/
def commit (s : Store δ π) (t : ℕ) (p q : π) : Store δ π := { s.put t q with db := writes p s.db }

variable {locks writes} {s : Store δ π} {t u : ℕ} {p q : π}

@[simp] theorem db_put : (s.put t p).db = s.db := rfl

@[simp] theorem phase?_init (db : δ) : (init db : Store δ π).phase? t = none := rfl

@[simp] theorem phase?_put_self : (s.put t p).phase? t = some p := Table.get?_put_self

theorem phase?_put_ne (h : u ≠ t) : (s.put t p).phase? u = s.phase? u := Table.get?_put_ne h

theorem phase?_put : (s.put t p).phase? u = if u = t then some p else s.phase? u :=
  Table.get?_put

@[simp] theorem db_commit : (s.commit writes t p q).db = writes p s.db := rfl

theorem phase?_commit : (s.commit writes t p q).phase? u = if u = t then some q else s.phase? u :=
  Table.get?_put

@[simp] theorem db_enter : (s.enter locks t p).db = s.db := by
  unfold enter; split_ifs <;> rfl

variable (locks) in
theorem enter_cases (s : Store δ π) (t : ℕ) (p : π) :
    s.enter locks t p = s ∨ (s.grants locks t (locks p) = true ∧ s.enter locks t p = s.put t p) := by
  unfold enter
  split_ifs with h
  · exact .inr ⟨h, rfl⟩
  · exact .inl rfl

theorem grants_iff {ls : List (κ × Mode)} :
    s.grants locks t ls = true ↔
      ∀ u p, s.phase? u = some p → u ≠ t → ∀ l ∈ locks p, ∀ l' ∈ ls, l.1 = l'.1 →
        l.2.conflicts l'.2 = false := by
  unfold grants phase?
  rw [List.all_eq_true]
  constructor
  · intro h u p hp hu l hl l' hl' hk
    have he := h (u, p) (Table.get?_eq_some_iff.mp hp)
    simp only [beq_iff_eq, hu, Bool.or_eq_true, false_or, List.all_eq_true] at he
    have := he l hl l' hl'
    simpa [hk] using this
  · rintro h ⟨u, p⟩ hm
    by_cases hu : u = t
    · simp [hu]
    · simp only [beq_iff_eq, hu, Bool.or_eq_true, false_or, List.all_eq_true]
      intro l hl l' hl'
      have := h u p (Table.get?_eq_some_iff.mpr hm) hu l hl l' hl'
      by_cases hk : l.1 = l'.1
      · simp [this hk]
      · simp [hk]

/-! ## Exclusion -/

variable (locks) in
/-- No two transactions hold conflicting locks of one row. -/
def Exclusive (s : Store δ π) : Prop :=
  ∀ t p u q, s.phase? t = some p → s.phase? u = some q → t ≠ u →
    ∀ l ∈ locks p, ∀ l' ∈ locks q, l.1 = l'.1 → l.2.conflicts l'.2 = false

omit [DecidableEq κ] in
theorem exclusive_init (db : δ) : (init db : Store δ π).Exclusive locks := by
  intro t p u q hp
  cases hp

theorem Exclusive.put (h : s.Exclusive locks) (hg : s.grants locks t (locks p) = true) :
    (s.put t p).Exclusive locks := by
  rw [grants_iff] at hg
  intro v q u r hq hr hne l hl l' hl' hk
  rw [phase?_put] at hq hr
  split_ifs at hq hr with hv hu hu
  · exact absurd (hv.trans hu.symm) hne
  · cases hq
    rw [Mode.conflicts_comm]
    exact hg u r hr hu l' hl' l hl hk.symm
  · cases hr
    exact hg v q hq hv l hl l' hl' hk
  · exact h v q u r hq hr hne l hl l' hl' hk

theorem grants_nil : s.grants locks t [] = true := by simp [grants]

/-- A transaction that holds no lock excludes nobody. -/
theorem Exclusive.put_free (h : s.Exclusive locks) (hp : locks p = []) :
    (s.put t p).Exclusive locks := h.put (by rw [hp]; exact grants_nil)

/-- A transaction keeps the locks it holds. -/
theorem Exclusive.put_held (h : s.Exclusive locks) (hq : s.phase? t = some q)
    (hl : ∀ l ∈ locks p, l ∈ locks q) : (s.put t p).Exclusive locks := by
  refine h.put (grants_iff.mpr fun u r hr hu l hm l' hm' hk => ?_)
  exact h u r t q hr hq hu l hm l' (hl l' hm') hk

/-- A transaction keeps the locks it holds, and is granted others. -/
theorem Exclusive.put_more (h : s.Exclusive locks) (hq : s.phase? t = some q) {ls : List (κ × Mode)}
    (hg : s.grants locks t ls = true) (hl : ∀ l ∈ locks p, l ∈ locks q ∨ l ∈ ls) :
    (s.put t p).Exclusive locks := by
  rw [grants_iff] at hg
  refine h.put (grants_iff.mpr fun u r hr hu l hm l' hm' hk => ?_)
  rcases hl l' hm' with hheld | hgranted
  · exact h u r t q hr hq hu l hm l' hheld hk
  · exact hg u r hr hu l hm l' hgranted hk

theorem Exclusive.enter (h : s.Exclusive locks) : (s.enter locks t p).Exclusive locks := by
  rcases enter_cases locks s t p with he | ⟨hg, he⟩
  · rw [he]; exact h
  · rw [he]; exact h.put hg

theorem Exclusive.commit (h : s.Exclusive locks) (hq : locks q = []) :
    (s.commit writes t p q).Exclusive locks := h.put_free hq

omit [DecidableEq κ] in
/-- Only one transaction holds a row in a mode that conflicts with itself. -/
theorem Exclusive.eq_of_mem (h : s.Exclusive locks) (hp : s.phase? t = some p)
    (hq : s.phase? u = some q) {k : κ} {m n : Mode} (hk : (k, m) ∈ locks p) (hk' : (k, n) ∈ locks q)
    (hc : m.conflicts n = true) : t = u := by
  by_contra hne
  have := h t p u q hp hq hne _ hk _ hk' rfl
  rw [hc] at this
  cases this

/-! ## Facts a transaction relies on

What a transaction has read of the rows it pins stays true until it ends: whoever changes a row
holds it in a mode that conflicts.
-/

/-- A transaction in the phase `p` keeps the row `k` as it is. -/
def Pins (locks : π → List (κ × Mode)) (p : π) (k : κ) : Prop :=
  ∃ m, (k, m) ∈ locks p ∧ m.pins = true

/-- A transaction in the phase `p` may change the row `k`. -/
def Changes (locks : π → List (κ × Mode)) (p : π) (k : κ) : Prop :=
  ∃ m, (k, m) ∈ locks p ∧ m.changes = true

omit [DecidableEq κ] in
theorem Exclusive.not_changes (h : s.Exclusive locks) (hp : s.phase? t = some p)
    (hq : s.phase? u = some q) (hne : u ≠ t) {k : κ} (hk : Pins locks q k) :
    ¬ Changes locks p k := by
  rintro ⟨n, hn, hc⟩
  obtain ⟨m, hm, hpin⟩ := hk
  exact hne (h.eq_of_mem hq hp hm hn (Mode.conflicts_of_pins hpin hc))

variable {fact : π → δ → Prop}

/-- Every transaction's phase holds of what is committed. -/
def Facts (fact : π → δ → Prop) (s : Store δ π) : Prop :=
  ∀ t p, s.phase? t = some p → fact p s.db

theorem facts_init (db : δ) : (init db : Store δ π).Facts fact := by
  intro t p hp
  cases hp

theorem Facts.put (h : s.Facts fact) (hp : fact p s.db) : (s.put t p).Facts fact := by
  intro u q hq
  rw [phase?_put] at hq
  split_ifs at hq
  · cases hq
    exact hp
  · exact h u q hq

theorem Facts.enter (h : s.Facts fact) (hp : s.grants locks t (locks p) = true → fact p s.db) :
    (s.enter locks t p).Facts fact := by
  rcases enter_cases locks s t p with he | ⟨hg, he⟩
  · rw [he]; exact h
  · rw [he]; exact h.put (hp hg)

/-- A commit that leaves what the others rely on. -/
theorem Facts.commit_others (h : s.Facts fact)
    (hothers : ∀ u r, s.phase? u = some r → u ≠ t → fact r s.db → fact r (writes p s.db))
    (hq : fact q (writes p s.db)) : (s.commit writes t p q).Facts fact := by
  intro u r hr
  rw [phase?_commit] at hr
  split_ifs at hr with hu
  · cases hr
    exact hq
  · exact hothers u r hr hu (h u r hr)

omit [DecidableEq κ] in
theorem Exclusive.not_pins (h : s.Exclusive locks) (hp : s.phase? t = some p)
    (hq : s.phase? u = some q) (hne : u ≠ t) {k : κ} (hk : Changes locks q k) :
    ¬ Pins locks p k :=
  fun hpin => h.not_changes hq hp hne.symm hpin hk

omit [DecidableEq κ] in
/-- **Frame rule.** A commit leaves what the others rely on: of the rows it may not change it keeps
what `agree` says, of those it does not even pin what `guarded` says, and a fact depends only on the
first for the rows its holder pins and on the second for those it may change. -/
theorem Facts.commit (h : s.Facts fact) (he : s.Exclusive locks) (hp : s.phase? t = some p)
    (agree guarded : κ → δ → δ → Prop)
    (hframe : ∀ k, ¬ Changes locks p k → agree k s.db (writes p s.db))
    (hguard : ∀ k, ¬ Pins locks p k → guarded k s.db (writes p s.db))
    (hcongr : ∀ r db', (∀ k, Pins locks r k → agree k s.db db') →
      (∀ k, Changes locks r k → guarded k s.db db') → fact r s.db → fact r db')
    (hq : fact q (writes p s.db)) : (s.commit writes t p q).Facts fact := by
  refine h.commit_others (fun u r hr hu hfact => ?_) hq
  refine hcongr r _ (fun k hk => ?_) (fun k hk => ?_) hfact
  · exact hframe k (he.not_changes hp hr hu hk)
  · exact hguard k (he.not_pins hp hr hu hk)

end Store

end Transactions
