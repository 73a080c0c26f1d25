import BunMail.Lib.Transactions

/-!
# Transactions as lists of writes

A draft is a transaction under way: where it stands, the row locks it holds, and its writes so far.
It sees the committed state with its own writes on top.

A write acts on some rows, and needs something of the state it acts on.  What a draft's writes need
lasts while it holds the rows they act on in a mode that excludes the other writers.  So a statement
has to find what its write needs in the state its draft sees, and an invariant has to be kept by one
write where it finds what it needs.
-/

namespace Transactions

/-- A transaction under way. -/
structure Draft (κ ω γ : Type) where
  point : γ
  held : List (κ × Mode)
  written : List ω
  deriving DecidableEq

section Writes

variable {δ ω κ γ : Type} (apply : ω → δ → δ) (ok : ω → δ → Prop) (rights : ω → List κ)

/-- The state after the writes. -/
def applyAll (ws : List ω) (db : δ) : δ := ws.foldl (fun db w => apply w db) db

/-- Each write finds what it needs after those before it. -/
def AllOk : List ω → δ → Prop
  | [], _ => True
  | w :: ws, db => ok w db ∧ AllOk ws (apply w db)

/-- What the draft sees. -/
def Draft.view (p : Draft κ ω γ) (db : δ) : δ := applyAll apply p.written db

/-- The draft holds the rows that its writes act on. -/
def Draft.Covered (p : Draft κ ω γ) : Prop :=
  ∀ w ∈ p.written, ∀ k ∈ rights w, Store.Changes Draft.held p k

variable {apply ok rights} {w : ω} {ws vs : List ω} {db : δ}

@[simp] theorem applyAll_nil : applyAll apply [] db = db := rfl

@[simp] theorem applyAll_cons : applyAll apply (w :: ws) db = applyAll apply ws (apply w db) := rfl

theorem applyAll_append :
    applyAll apply (ws ++ vs) db = applyAll apply vs (applyAll apply ws db) := List.foldl_append

theorem allOk_append :
    AllOk apply ok (ws ++ vs) db ↔
      AllOk apply ok ws db ∧ AllOk apply ok vs (applyAll apply ws db) := by
  induction ws generalizing db with
  | nil => simp [AllOk]
  | cons w ws ih => simp only [List.cons_append, AllOk, ih, applyAll_cons, and_assoc]

theorem allOk_of_forall (h : ∀ w ∈ ws, ∀ db, ok w db) : AllOk apply ok ws db := by
  induction ws generalizing db with
  | nil => trivial
  | cons w ws ih =>
    exact ⟨h w List.mem_cons_self db, ih fun v hv => h v (List.mem_cons_of_mem _ hv)⟩

/-- What one write keeps where it finds what it needs, all of them keep. -/
theorem applyAll_inv {Inv : δ → Prop} (hkeep : ∀ w db, Inv db → ok w db → Inv (apply w db))
    (hinv : Inv db) (hok : AllOk apply ok ws db) : Inv (applyAll apply ws db) := by
  induction ws generalizing db with
  | nil => exact hinv
  | cons w ws ih => exact ih (hkeep w db hinv hok.1) hok.2

end Writes

/-- `agree k db db'`: as far as the holder of the row `k` relies on it, `db'` is as `db`.  Writes act
on the rows they have rights to, and need nothing of the others. -/
structure LocalWrites {δ ω κ : Type} (apply : ω → δ → δ) (ok : ω → δ → Prop) (rights : ω → List κ)
    (agree : κ → δ → δ → Prop) : Prop where
  refl : ∀ k db, agree k db db
  trans : ∀ {k a b c}, agree k a b → agree k b c → agree k a c
  frame : ∀ {w k} db, k ∉ rights w → agree k db (apply w db)
  congr : ∀ {k db db'} w, agree k db db' → agree k (apply w db) (apply w db')
  ok_congr : ∀ {w db db'}, (∀ k ∈ rights w, agree k db db') → ok w db → ok w db'

namespace LocalWrites

variable {δ ω κ γ : Type} {apply : ω → δ → δ} {ok : ω → δ → Prop} {rights : ω → List κ}
  {agree : κ → δ → δ → Prop}

theorem frame_all (h : LocalWrites apply ok rights agree) {ws : List ω} {k : κ}
    (hk : ∀ w ∈ ws, k ∉ rights w) (db : δ) : agree k db (applyAll apply ws db) := by
  induction ws generalizing db with
  | nil => exact h.refl k db
  | cons w ws ih =>
    have hhead := h.frame db (hk w List.mem_cons_self)
    have htail := ih (fun v hv => hk v (List.mem_cons_of_mem _ hv)) (apply w db)
    exact h.trans hhead htail

theorem allOk_congr (h : LocalWrites apply ok rights agree) {ws : List ω} {db db' : δ}
    (hagree : ∀ w ∈ ws, ∀ k ∈ rights w, agree k db db') (hok : AllOk apply ok ws db) :
    AllOk apply ok ws db' := by
  induction ws generalizing db db' with
  | nil => trivial
  | cons w ws ih =>
    refine ⟨h.ok_congr (hagree w List.mem_cons_self) hok.1, ih (fun v hv k hk => ?_) hok.2⟩
    exact h.congr w (hagree v (List.mem_cons_of_mem _ hv) k hk)

end LocalWrites

/-! ## Steps -/

namespace Store

variable {δ ω κ γ : Type} [DecidableEq κ] (apply : ω → δ → δ)

/-- The draft `p` of `t` comes to a point. -/
def go (s : Store δ (Draft κ ω γ)) (t : ℕ) (p : Draft κ ω γ) (point : γ) : Store δ (Draft κ ω γ) :=
  s.put t { p with point := point }

/-- Once it is granted the locks, the draft `p` of `t` writes, and comes to a point. -/
def write (s : Store δ (Draft κ ω γ)) (t : ℕ) (p : Draft κ ω γ) (point : γ) (locks : List (κ × Mode))
    (ws : List ω) : Store δ (Draft κ ω γ) :=
  s.enter Draft.held t ⟨point, p.held ++ locks, p.written ++ ws⟩

/-- `t` stands at a point, with no lock and no write. -/
def leave (s : Store δ (Draft κ ω γ)) (t : ℕ) (point : γ) : Store δ (Draft κ ω γ) :=
  s.put t ⟨point, [], []⟩

/-- The draft `p` of `t` commits. -/
def finish (s : Store δ (Draft κ ω γ)) (t : ℕ) (p : Draft κ ω γ) (point : γ) :
    Store δ (Draft κ ω γ) :=
  s.commit (Draft.view apply) t p ⟨point, [], []⟩

omit [DecidableEq κ] in
@[simp] theorem db_go (s : Store δ (Draft κ ω γ)) (t : ℕ) (p : Draft κ ω γ) (point : γ) :
    (s.go t p point).db = s.db := rfl

@[simp] theorem db_write (s : Store δ (Draft κ ω γ)) (t : ℕ) (p : Draft κ ω γ) (point : γ)
    (locks : List (κ × Mode)) (ws : List ω) : (s.write t p point locks ws).db = s.db := db_enter

omit [DecidableEq κ] in
@[simp] theorem db_leave (s : Store δ (Draft κ ω γ)) (t : ℕ) (point : γ) :
    (s.leave t point).db = s.db := rfl

omit [DecidableEq κ] in
@[simp] theorem db_finish (s : Store δ (Draft κ ω γ)) (t : ℕ) (p : Draft κ ω γ) (point : γ) :
    (s.finish apply t p point).db = p.view apply s.db := rfl

end Store

/-! ## What holds of every transaction -/

namespace Store

variable {δ π κ : Type} {P : π → Prop} {s : Store δ π} {t : ℕ} {p : π}

/-- Every transaction stands so. -/
def Each (P : π → Prop) (s : Store δ π) : Prop := ∀ t p, s.phase? t = some p → P p

theorem each_init (P : π → Prop) (db : δ) : (init db : Store δ π).Each P := by
  intro t p hp
  cases hp

theorem Each.put (h : s.Each P) (hp : P p) : (s.put t p).Each P := by
  intro u q hq
  rw [phase?_put] at hq
  split_ifs at hq
  · cases hq
    exact hp
  · exact h u q hq

theorem Each.enter [DecidableEq κ] {locks : π → List (κ × Mode)} (h : s.Each P) (hp : P p) :
    (s.enter locks t p).Each P := by
  rcases enter_cases locks s t p with he | ⟨_, he⟩
  · rw [he]
    exact h
  · rw [he]
    exact h.put hp

theorem Each.commit {writes : π → δ → δ} {q : π} (h : s.Each P) (hq : P q) :
    (s.commit writes t p q).Each P := by
  intro u r hr
  rw [phase?_commit] at hr
  split_ifs at hr
  · cases hr
    exact hq
  · exact h u r hr

end Store

/-! ## What each transaction tells -/

namespace Store

variable {δ π κ : Type} {T : ℕ → π → δ → Prop} {s : Store δ π} {t : ℕ} {p : π}

/-- What each transaction tells of itself and of the committed state. -/
def Told (T : ℕ → π → δ → Prop) (s : Store δ π) : Prop := ∀ t p, s.phase? t = some p → T t p s.db

theorem told_init (T : ℕ → π → δ → Prop) (db : δ) : (init db : Store δ π).Told T := by
  intro t p hp
  cases hp

theorem Told.put (h : s.Told T) (hp : T t p s.db) : (s.put t p).Told T := by
  intro u q hq
  rw [phase?_put] at hq
  split_ifs at hq with hu
  · cases hq
    subst hu
    exact hp
  · exact h u q hq

theorem Told.enter [DecidableEq κ] {locks : π → List (κ × Mode)} (h : s.Told T) (hp : T t p s.db) :
    (s.enter locks t p).Told T := by
  rcases enter_cases locks s t p with he | ⟨_, he⟩
  · rw [he]
    exact h
  · rw [he]
    exact h.put hp

theorem Told.shift (h : s.Told T) {db : δ} (hdb : ∀ t p, T t p s.db → T t p db) :
    Told T ({ s with db := db } : Store δ π) := fun t p hp => hdb t p (h t p hp)

end Store

/-! ## Sound stores -/

variable {δ ω κ γ : Type} (apply : ω → δ → δ) (ok : ω → δ → Prop) (rights : ω → List κ)
  (Inv : δ → Prop)

/-- Locks exclude each other, every draft's writes find what they need, and the committed state keeps
the invariant. -/
structure Sound (s : Store δ (Draft κ ω γ)) : Prop where
  exclusive : s.Exclusive Draft.held
  lasting : s.Facts fun p db => AllOk apply ok p.written db
  covered : s.Each (Draft.Covered rights)
  inv : Inv s.db

namespace Sound

variable {apply ok rights Inv} [DecidableEq κ] {s : Store δ (Draft κ ω γ)} {t : ℕ}
  {p : Draft κ ω γ} {point : γ}

omit [DecidableEq κ] in
theorem init {db : δ} (h : Inv db) :
    Sound apply ok rights Inv (Store.init db : Store δ (Draft κ ω γ)) where
  exclusive := Store.exclusive_init db
  lasting := Store.facts_init db
  covered := Store.each_init _ db
  inv := h

theorem go (h : Sound apply ok rights Inv s) (hp : s.phase? t = some p) :
    Sound apply ok rights Inv (s.go t p point) where
  exclusive := h.exclusive.put_held hp fun _ hl => hl
  lasting := h.lasting.put (h.lasting t p hp)
  covered := h.covered.put (h.covered t p hp)
  inv := h.inv

theorem leave (h : Sound apply ok rights Inv s) : Sound apply ok rights Inv (s.leave t point) where
  exclusive := h.exclusive.put_free rfl
  lasting := h.lasting.put trivial
  covered := h.covered.put (by intro w hw; cases hw)
  inv := h.inv

/-- A statement writes where it finds what it needs in the state its draft sees. -/
theorem write (h : Sound apply ok rights Inv s) (hp : s.phase? t = some p)
    {locks : List (κ × Mode)} {ws : List ω}
    (hcov : ∀ w ∈ ws, ∀ k ∈ rights w, ∃ m, (k, m) ∈ p.held ++ locks ∧ m.changes = true)
    (hok : AllOk apply ok ws (p.view apply s.db)) :
    Sound apply ok rights Inv (s.write t p point locks ws) where
  exclusive := h.exclusive.enter
  lasting := h.lasting.enter fun _ => allOk_append.mpr ⟨h.lasting t p hp, hok⟩
  covered := by
    refine h.covered.enter fun w hw k hk => ?_
    rcases List.mem_append.mp hw with hold | hnew
    · obtain ⟨m, hm, hc⟩ := h.covered t p hp w hold k hk
      exact ⟨m, List.mem_append_left _ hm, hc⟩
    · exact hcov w hnew k hk
  inv := by rw [Store.db_write]; exact h.inv

/-- A first statement. -/
theorem begin (h : Sound apply ok rights Inv s) {locks : List (κ × Mode)} {ws : List ω}
    (hcov : ∀ w ∈ ws, ∀ k ∈ rights w, ∃ m, (k, m) ∈ locks ∧ m.changes = true)
    (hok : AllOk apply ok ws s.db) :
    Sound apply ok rights Inv (s.enter Draft.held t ⟨point, locks, ws⟩) where
  exclusive := h.exclusive.enter
  lasting := h.lasting.enter fun _ => hok
  covered := h.covered.enter hcov
  inv := by rw [Store.db_enter]; exact h.inv

variable {agree : κ → δ → δ → Prop}

/-- A commit keeps what the others rely on, and what each of its writes keeps. -/
theorem finish (h : Sound apply ok rights Inv s) (hlocal : LocalWrites apply ok rights agree)
    (hkeep : ∀ w db, Inv db → ok w db → Inv (apply w db)) (hp : s.phase? t = some p) :
    Sound apply ok rights Inv (s.finish apply t p point) where
  exclusive := h.exclusive.commit rfl
  lasting := by
    refine h.lasting.commit_others (fun u r hr hu hfact => ?_) trivial
    refine hlocal.allOk_congr (fun w hw k hk => hlocal.frame_all (fun v hv hkv => ?_) s.db) hfact
    -- both hold the row in a mode that changes it
    obtain ⟨m, hm, hc⟩ := h.covered u r hr w hw k hk
    obtain ⟨n, hn, hc'⟩ := h.covered t p hp v hv k hkv
    have hpins : m.pins = true := by cases m <;> simp_all [Mode.changes, Mode.pins]
    exact hu (h.exclusive.eq_of_mem hr hp hm hn (Mode.conflicts_of_pins hpins hc'))
  covered := h.covered.commit (by intro w hw; cases hw)
  inv := applyAll_inv hkeep h.inv (h.lasting t p hp)

omit [DecidableEq κ] in
/-- What a point says of the committed state lasts if every write keeps it. -/
theorem known_finish {K : γ → δ → Prop} (h : Sound apply ok rights Inv s) (hp : s.phase? t = some p)
    (hknown : s.Facts fun q db => K q.point db)
    (hstable : ∀ g w db, K g db → ok w db → K g (apply w db)) (hpoint : ∀ db, K point db) :
    (s.finish apply t p point).Facts fun q db => K q.point db := by
  refine hknown.commit_others (fun u r _ _ hfact => ?_) (hpoint _)
  have hkeep : ∀ w db, K r.point db → ok w db → K r.point (apply w db) := hstable r.point
  exact applyAll_inv hkeep hfact (h.lasting t p hp)

omit [DecidableEq κ] in
/-- The committed state changes in nothing that anyone relies on. -/
theorem shift (h : Sound apply ok rights Inv s) (hlocal : LocalWrites apply ok rights agree) {db : δ}
    (hagree : ∀ k, agree k s.db db) (hinv : Inv db) :
    Sound apply ok rights Inv { s with db := db } where
  exclusive := h.exclusive
  lasting := fun u r hr => hlocal.allOk_congr (fun _ _ k _ => hagree k) (h.lasting u r hr)
  covered := h.covered
  inv := hinv

omit [DecidableEq κ] in
/-- What every write keeps is still told after a commit. -/
theorem told_finish {T : ℕ → Draft κ ω γ → δ → Prop} (h : Sound apply ok rights Inv s)
    (hp : s.phase? t = some p) (htold : s.Told T) (hstable : ∀ u q w db, T u q db → ok w db → T u q (apply w db))
    (hpoint : T t ⟨point, [], []⟩ (p.view apply s.db)) : (s.finish apply t p point).Told T := by
  intro u r hr
  rw [Store.finish, Store.phase?_commit] at hr
  split_ifs at hr with hu
  · cases hr
    subst hu
    exact hpoint
  · exact applyAll_inv (hstable u r) (htold u r hr) (h.lasting t p hp)

end Sound

end Transactions
