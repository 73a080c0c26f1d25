import Mathlib.Tactic.Linarith
import BunMail.Utils.WindowCounters

/-!
# The windows a counter shows

What a counter answers at some time depends on its live windows alone.  Each operation is described
by what it does to them, for the memory counter and for the Redis scripts alike; the two only differ
in the ids of the windows they begin.
-/

namespace BunMail.Utils.Windows

/-- The live windows by key. -/
abbrev View := Text → Option MemoryWindow

/-! ## A take, on the live windows -/

section Take

variable (options : WindowOptions) (now : Time) (v : View) (keys : List Text)

/-- The key is over the limit. -/
def passes (key : Text) : Bool := decide (options.max < (v key).elim 0 (·.count) + options.weight)

/-- How long the key's window lasts. -/
def remaining (key : Text) : ℤ := (v key).elim options.windowMs fun w => w.expiresAt - now

/-- The longest wait among the keys over the limit. -/
def retry : ℤ :=
  keys.foldl (fun r k => if passes options v k then max r (remaining options now v k) else r) 0

/-- What the take counts. -/
def added : ℤ := if keys.any (passes options v) then options.refusedWeight else options.weight

/-- A window counts `add`; without one, a window with the given id begins. -/
def counted (windowMs : ℕ) (now : Time) (add : ℤ) (id : Text) (w : Option MemoryWindow) :
    Option MemoryWindow :=
  if 0 < add then
    some { w.getD ⟨0, now + windowMs, false, id⟩ with
      count := (w.getD ⟨0, now + windowMs, false, id⟩).count + add }
  else w

/-- The highest count among the keys. -/
def top (start : ℤ) : ℤ := keys.foldl (fun c k => max c ((v k).elim 0 (·.count))) start

/-- The ids of the keys' windows. -/
def idsOf : List (Text × Text) := keys.filterMap fun k => (v k).map fun w => (k, w.id)

/-- A take at `now` from the live windows `v` leaves the live windows `v'`. -/
structure Takes (fresh : Text → Prop) (v v' : View) (d : WindowDecision) : Prop where
  limited : d.limited = keys.any (passes options v)
  retryAfterMs : d.retryAfterMs =
    if keys.any (passes options v) then some (retry options now v keys) else none
  count : d.count = top v' keys 0
  self : ∀ k ∈ keys, ∃ id, fresh id ∧
    v' k = counted options.windowMs now (added options v keys) id (v k)
  other : ∀ k, k ∉ keys → v' k = v k
  windows : d.windows.rows = idsOf v' keys

end Take

/-! ## Every call, on the live windows -/

/-- One is given back to the window with the id. -/
def refunded (windowId : Text) (w : MemoryWindow) : MemoryWindow :=
  if w.id = windowId then { w with count := max 0 (w.count - 1) } else w

/-- A call at `now` from the live windows `v` answers `a` and leaves the live windows `v'`; the
windows that begin have fresh ids. -/
def Effect (fresh : Text → Prop) (now : Time) (v : View) : Op → Answer → View → Prop
  | .take keys options, a, v' => ∃ d, a = .took d ∧ Takes options now keys.1 fresh v v' d
  | .peek key, a, v' => a = .peeked ((v key).map fun w => ⟨w.count, w.expiresAt - now⟩) ∧ v' = v
  | .refund key windowId, a, v' =>
    a = .done ∧ ∀ k, v' k = if k = key then (v k).map (refunded windowId) else v k
  | .delete keys, a, v' => a = .done ∧ ∀ k, v' k = if k ∈ keys then none else v k
  | .markOnce key, a, v' => a = .marked ((v key).elim false fun w => !w.marked) ∧
      ∀ k, v' k = if k = key then (v k).map fun w => { w with marked := true } else v k
  | .prune, a, v' => a = .done ∧ v' = v

/-- A counter that does what its live windows say. -/
structure Lawful {σ : Type} (call : σ → Time → Op → Answer × σ) where
  view : σ → Time → View
  /-- The ids handed out so far. -/
  used : σ → Text → Prop
  Inv : Time → σ → Prop
  view_later : ∀ {s now later}, now ≤ later →
    ∀ k, view s later k = (view s now k).filter fun w => decide (later < w.expiresAt)
  inv_later : ∀ {s now later}, now ≤ later → Inv now s → Inv later s
  sound : ∀ {s now k w}, Inv now s → view s now k = some w →
    0 ≤ w.count ∧ now < w.expiresAt ∧ used s w.id
  effect : ∀ {s now} op, Inv now s →
    Effect (fun id => ¬ used s id) now (view s now) op (call s now op).1 (view (call s now op).2 now)
  inv : ∀ {s now} op, Inv now s → Inv now (call s now op).2
  used_call : ∀ {s now id} op, Inv now s → used s id → used (call s now op).2 id

/-- What is not live later is not live later still. -/
theorem filter_later {now later : Time} (h : now ≤ later) (o : Option MemoryWindow) :
    (o.filter fun w => decide (now < w.expiresAt)).filter (fun w => decide (later < w.expiresAt)) =
      o.filter fun w => decide (later < w.expiresAt) := by
  rw [Option.filter_filter]
  congr 1
  funext w
  by_cases hw : later < w.expiresAt
  · simp [hw, lt_of_le_of_lt h hw]
  · simp [hw]

/-! ## Where a window comes from -/

section Origin

variable {fresh : Text → Prop} {now : Time} {v v' : View} {a : Answer} {k : Text} {w' : MemoryWindow}

theorem added_nonneg (options : WindowOptions) (v : View) (keys : List Text) :
    0 ≤ added options v keys := by
  unfold added
  split_ifs
  · exact options.refusedWeight_nonneg
  · exact zero_le_one.trans options.weight_pos

/-- After a take, a window is the one from before, with what was added, or a new one. -/
theorem Takes.origin {options : WindowOptions} {keys : List Text} {d : WindowDecision}
    (h : Takes options now keys fresh v v' d) (hw : v' k = some w') :
    (∃ w, v k = some w ∧ w'.id = w.id ∧ w'.expiresAt = w.expiresAt ∧
      w'.count = w.count + if k ∈ keys then added options v keys else 0) ∨
    (v k = none ∧ k ∈ keys ∧ fresh w'.id ∧ 0 < added options v keys ∧
      w'.count = added options v keys) := by
  by_cases hk : k ∈ keys
  · obtain ⟨id, hid, heq⟩ := h.self k hk
    rw [heq, counted] at hw
    split_ifs at hw with hadd
    · cases hw
      cases hv : v k with
      | none => exact .inr ⟨rfl, hk, hid, hadd, zero_add _⟩
      | some w => exact .inl ⟨w, rfl, rfl, rfl, by rw [if_pos hk]; rfl⟩
    · refine .inl ⟨w', hw, rfl, rfl, ?_⟩
      have := added_nonneg options v keys
      rw [if_pos hk]
      omega
  · exact .inl ⟨w', (h.other k hk) ▸ hw, rfl, rfl, by rw [if_neg hk, add_zero]⟩

/-- After any other call, a window is the one from before; only a refund with its id lowers it. -/
theorem Effect.origin {op : Op} (h : Effect fresh now v op a v')
    (hop : ∀ keys options, op ≠ .take keys options) (hw : v' k = some w') :
    ∃ w, v k = some w ∧ w'.id = w.id ∧ w'.expiresAt = w.expiresAt ∧
      (w'.count = w.count ∨ op = .refund k w.id ∧ w'.count = max 0 (w.count - 1)) := by
  cases op with
  | take keys options => exact absurd rfl (hop keys options)
  | peek key => exact ⟨w', h.2 ▸ hw, rfl, rfl, .inl rfl⟩
  | prune => exact ⟨w', h.2 ▸ hw, rfl, rfl, .inl rfl⟩
  | delete keys =>
    have hk := h.2 k
    rw [hw] at hk
    split_ifs at hk
    exact ⟨w', hk.symm, rfl, rfl, .inl rfl⟩
  | refund key id =>
    have hk := h.2 k
    rw [hw] at hk
    split_ifs at hk with hkey
    · subst hkey
      obtain ⟨w, hv, rfl⟩ := Option.map_eq_some_iff.mp hk.symm
      refine ⟨w, hv, ?_⟩
      unfold refunded
      split_ifs with hid
      · exact ⟨rfl, rfl, .inr ⟨by rw [hid], rfl⟩⟩
      · exact ⟨rfl, rfl, .inl rfl⟩
    · exact ⟨w', hk.symm, rfl, rfl, .inl rfl⟩
  | markOnce key =>
    have hk := h.2 k
    rw [hw] at hk
    split_ifs at hk
    · obtain ⟨w, hv, rfl⟩ := Option.map_eq_some_iff.mp hk.symm
      exact ⟨w, hv, rfl, rfl, .inl rfl⟩
    · exact ⟨w', hk.symm, rfl, rfl, .inl rfl⟩

/-- A window is the one from before, or a new one. -/
theorem Effect.source {op : Op} (h : Effect fresh now v op a v') (hw : v' k = some w') :
    (∃ w, v k = some w ∧ w'.id = w.id) ∨ (v k = none ∧ fresh w'.id) := by
  by_cases hop : ∃ keys options, op = .take keys options
  · obtain ⟨keys, options, rfl⟩ := hop
    obtain ⟨d, _, ht⟩ := h
    rcases ht.origin hw with ⟨w, hv, hid, _⟩ | ⟨hv, _, hid, _⟩
    · exact .inl ⟨w, hv, hid⟩
    · exact .inr ⟨hv, hid⟩
  · obtain ⟨w, hv, hid, _⟩ := h.origin (fun keys options heq => hop ⟨keys, options, heq⟩) hw
    exact .inl ⟨w, hv, hid⟩

end Origin

/-! ## The loops -/

section Loops

variable {σ : Type} (view : σ → View) (Inv : σ → Prop) {options : WindowOptions} {now : Time}

/-- One turn of the first loop. -/
structure CheckStep (options : WindowOptions) (now : Time) (acc acc' : Checked σ) (key : Text) :
    Prop where
  view_eq : view acc'.counter = view acc.counter
  limited : acc'.limited = (acc.limited || passes options (view acc.counter) key)
  retry : acc'.retryAfterMs = if passes options (view acc.counter) key then
    max acc.retryAfterMs (remaining options now (view acc.counter) key) else acc.retryAfterMs

theorem check_fold {f : Checked σ → Text → Checked σ} (keys : List Text)
    (hstep : ∀ acc key, Inv acc.counter →
      CheckStep view options now acc (f acc key) key ∧ Inv (f acc key).counter)
    (acc : Checked σ) (hacc : Inv acc.counter) :
    view (keys.foldl f acc).counter = view acc.counter ∧
      (keys.foldl f acc).limited = (acc.limited || keys.any (passes options (view acc.counter))) ∧
      (keys.foldl f acc).retryAfterMs = keys.foldl (fun r k => if passes options (view acc.counter) k
        then max r (remaining options now (view acc.counter) k) else r) acc.retryAfterMs ∧
      Inv (keys.foldl f acc).counter := by
  induction keys generalizing acc with
  | nil => exact ⟨rfl, (Bool.or_false _).symm, rfl, hacc⟩
  | cons key keys ih =>
    obtain ⟨hs, hinv⟩ := hstep acc key hacc
    obtain ⟨hview, hlimited, hretry, hinv'⟩ := ih (f acc key) hinv
    rw [hs.view_eq] at hview hlimited hretry
    refine ⟨hview, ?_, ?_, hinv'⟩
    · rw [List.foldl_cons, hlimited, hs.limited, List.any_cons, Bool.or_assoc]
    · rw [List.foldl_cons, hretry, hs.retry, List.foldl_cons]

/-- One turn of the second loop. -/
structure CountStep (windowMs : ℕ) (now : Time) (add : ℤ) (fresh : Text → Prop)
    (acc acc' : Counted σ) (key : Text) : Prop where
  self : ∃ id, fresh id ∧
    view acc'.counter key = counted windowMs now add id (view acc.counter key)
  other : ∀ k, k ≠ key → view acc'.counter k = view acc.counter k
  count : acc'.count = max acc.count ((view acc'.counter key).elim 0 (·.count))
  windows : acc'.windows =
    (view acc'.counter key).elim acc.windows fun w => acc.windows.put key w.id

variable {windowMs : ℕ} {add : ℤ} {fresh : Text → Prop}

/-- The rows the second loop adds. -/
theorem CountStep.rows {acc acc' : Counted σ} {key : Text}
    (h : CountStep view windowMs now add fresh acc acc' key) (hkey : key ∉ acc.windows.keys) :
    acc'.windows.rows = acc.windows.rows ++ idsOf (view acc'.counter) [key] := by
  rw [h.windows, idsOf, List.filterMap_cons, List.filterMap_nil]
  cases view acc'.counter key with
  | none => exact (List.append_nil _).symm
  | some w => exact Table.put_rows_of_notMem hkey

theorem count_fold {f : Counted σ → Text → Counted σ} {keys : List Text}
    (hstep : ∀ acc key, Inv acc.counter →
      CountStep view windowMs now add fresh acc (f acc key) key ∧ Inv (f acc key).counter)
    (hkeys : keys.Nodup) (acc : Counted σ) (hacc : Inv acc.counter)
    (hnew : ∀ k ∈ keys, k ∉ acc.windows.keys) :
    (∀ k ∈ keys, ∃ id, fresh id ∧
      view (keys.foldl f acc).counter k = counted windowMs now add id (view acc.counter k)) ∧
    (∀ k, k ∉ keys → view (keys.foldl f acc).counter k = view acc.counter k) ∧
    (keys.foldl f acc).count = top (view (keys.foldl f acc).counter) keys acc.count ∧
    (keys.foldl f acc).windows.rows =
      acc.windows.rows ++ idsOf (view (keys.foldl f acc).counter) keys ∧
    Inv (keys.foldl f acc).counter := by
  induction keys generalizing acc with
  | nil =>
    exact ⟨fun k hk => absurd hk List.not_mem_nil, fun _ _ => rfl, rfl, (List.append_nil _).symm,
      hacc⟩
  | cons key keys ih =>
    obtain ⟨hkey, hkeys⟩ := List.nodup_cons.mp hkeys
    obtain ⟨hs, hinv⟩ := hstep acc key hacc
    have hrows := hs.rows view (hnew key List.mem_cons_self)
    have hkept : ∀ k ∈ keys, k ∉ (f acc key).windows.keys := by
      intro k hk hmem
      rw [Table.keys, hrows, List.map_append, List.mem_append] at hmem
      rcases hmem with hmem | hmem
      · exact hnew k (List.mem_cons_of_mem _ hk) hmem
      · obtain ⟨e, he, rfl⟩ := List.mem_map.mp hmem
        obtain ⟨k', hk', he⟩ := List.mem_filterMap.mp he
        obtain ⟨w, _, rfl⟩ := Option.map_eq_some_iff.mp he
        rw [List.mem_singleton] at hk'
        exact hkey (hk' ▸ hk)
    obtain ⟨hself, hother, hcount, hwindows, hinv'⟩ := ih hkeys (f acc key) hinv hkept
    have hfirst := hother key hkey
    rw [List.foldl_cons]
    refine ⟨?_, ?_, ?_, ?_, hinv'⟩
    · intro k hk
      rcases List.mem_cons.mp hk with rfl | hk
      · rw [hfirst]
        exact hs.self
      · obtain ⟨id, hid, heq⟩ := hself k hk
        refine ⟨id, hid, ?_⟩
        rw [heq, hs.other k fun h => hkey (h ▸ hk)]
    · intro k hk
      rw [List.mem_cons, not_or] at hk
      rw [hother k hk.2, hs.other k hk.1]
    · rw [hcount, hs.count, top, top, List.foldl_cons, hfirst]
    · rw [hwindows, hrows, List.append_assoc]
      congr 1
      rw [idsOf, idsOf, idsOf, List.filterMap_cons, List.filterMap_nil, List.filterMap_cons, hfirst]
      cases view (f acc key).counter key <;> rfl

end Loops

end BunMail.Utils.Windows
