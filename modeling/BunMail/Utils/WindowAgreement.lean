import BunMail.Lib.Timed
import BunMail.Utils.WindowLawful

/-!
# Clients of the counters

A client calls a counter at non-decreasing times.  A refund names an earlier take and a key, and so
the id that the take was given for the key.  Two lawful counters answer a client alike, up to the
ids.
-/

namespace BunMail.Utils.Windows

open Timed

/-! ## Clients -/

/-- What a client asks for; a refund names a take by its number. -/
inductive Request where
  | take (keys : DistinctKeys) (options : WindowOptions)
  | peek (key : Text)
  | refund (take : ℕ) (key : Text)
  | delete (keys : List Text)
  | markOnce (key : Text)
  | prune

/-- A request, at the clock's time. -/
structure Call where
  time : Time
  request : Request

/-- A decision without the ids: which keys have a window. -/
inductive Reply where
  | took (limited : Bool) (count : ℤ) (retryAfterMs : Option ℤ) (windows : List Text)
  | peeked (state : Option WindowState)
  | marked (first : Bool)
  | done
  deriving DecidableEq

/-- The counter, and the ids of the takes so far. -/
structure Client (σ : Type) where
  counter : σ
  tickets : List WindowIds

/-- The call of the counter; without an id there is nothing to refund. -/
def Request.op (tickets : List WindowIds) : Request → Option Op
  | .take keys options => some (.take keys options)
  | .peek key => some (.peek key)
  | .refund n key => (tickets[n]?.bind (Table.get? · key)).map (.refund key)
  | .delete keys => some (.delete keys)
  | .markOnce key => some (.markOnce key)
  | .prune => some .prune

def Answer.reply : Answer → Reply
  | .took d => .took d.limited d.count d.retryAfterMs d.windows.keys
  | .peeked state => .peeked state
  | .marked first => .marked first
  | .done => .done

/-- The ids a take was given. -/
def Answer.tickets : Answer → List WindowIds
  | .took d => [d.windows]
  | _ => []

/-- A request of the client. -/
def Client.step {σ : Type} (call : σ → Time → Op → Answer × σ) (s : Client σ) (c : Call) :
    Reply × Client σ :=
  (c.request.op s.tickets).elim (.done, s) fun op =>
    ((call s.counter c.time op).1.reply,
      ⟨(call s.counter c.time op).2, s.tickets ++ (call s.counter c.time op).1.tickets⟩)

/-! ## Views that differ in the ids -/

/-- A window without its id. -/
def MemoryWindow.shape (w : MemoryWindow) : ℤ × Time × Bool := (w.count, w.expiresAt, w.marked)

theorem shape_eq {w x : MemoryWindow} (h : w.shape = x.shape) :
    w.count = x.count ∧ w.expiresAt = x.expiresAt ∧ w.marked = x.marked := by
  simpa [MemoryWindow.shape] using h

/-- The views agree up to ids. -/
def Alike (v u : View) : Prop := ∀ k, (v k).map MemoryWindow.shape = (u k).map MemoryWindow.shape

/-- The ids name the same window of the key, or none. -/
def SameWindow (v u : View) (key i j : Text) : Prop :=
  ∀ w x, v key = some w → u key = some x → (w.id = i ↔ x.id = j)

section Alike

variable {v u v' u' : View} {k : Text} {now : Time}

theorem Alike.elim (h : Alike v u) {β : Type} (none : β) (f : ℤ × Time × Bool → β) (k : Text) :
    (v k).elim none (fun w => f w.shape) = (u k).elim none fun w => f w.shape := by
  have hk := h k
  cases hv : v k with
  | none =>
    rw [hv] at hk
    rw [Option.map_eq_none_iff.mp hk.symm]
  | some w =>
    rw [hv] at hk
    obtain ⟨x, hx, hs⟩ := Option.map_eq_some_iff.mp hk.symm
    rw [hx, Option.elim_some, Option.elim_some, hs]

theorem Alike.cases (h : Alike v u) (k : Text) :
    (v k = none ∧ u k = none) ∨ ∃ w x, v k = some w ∧ u k = some x ∧ w.shape = x.shape := by
  have hk := h k
  cases hv : v k with
  | none =>
    rw [hv] at hk
    exact .inl ⟨rfl, Option.map_eq_none_iff.mp hk.symm⟩
  | some w =>
    rw [hv] at hk
    obtain ⟨x, hx, hs⟩ := Option.map_eq_some_iff.mp hk.symm
    exact .inr ⟨w, x, rfl, hx, hs.symm⟩

theorem Alike.passes (h : Alike v u) (options : WindowOptions) :
    Windows.passes options v = Windows.passes options u := by
  funext k
  unfold Windows.passes
  have := h.elim 0 (·.1) k
  simp only [MemoryWindow.shape] at this
  rw [this]

theorem Alike.retry (h : Alike v u) (options : WindowOptions) (keys : List Text) :
    Windows.retry options now v keys = Windows.retry options now u keys := by
  have hleft : remaining options now v = remaining options now u := by
    funext k
    exact h.elim (options.windowMs : ℤ) (fun s => (s.2.1 : ℤ) - now) k
  unfold Windows.retry
  rw [h.passes, hleft]

theorem Alike.added (h : Alike v u) (options : WindowOptions) (keys : List Text) :
    Windows.added options v keys = Windows.added options u keys := by
  unfold Windows.added
  rw [h.passes]

theorem Alike.top (h : Alike v u) (keys : List Text) (start : ℤ) :
    Windows.top v keys start = Windows.top u keys start := by
  have hcount : (fun k => (v k).elim 0 (·.count)) = fun k => (u k).elim 0 (·.count) := by
    funext k
    exact h.elim 0 (·.1) k
  unfold Windows.top
  exact congrArg (fun g : Text → ℤ => keys.foldl (fun c k => max c (g k)) start) hcount

theorem Alike.keys_idsOf (h : Alike v u) (keys : List Text) :
    (idsOf v keys).map Prod.fst = (idsOf u keys).map Prod.fst := by
  unfold idsOf
  rw [List.map_filterMap, List.map_filterMap]
  congr 1
  funext k
  rcases h.cases k with ⟨hv, hu⟩ | ⟨w, x, hv, hu, _⟩
  · rw [hv, hu]
  · rw [hv, hu]
    rfl

/-- A take leaves them alike. -/
theorem Takes.alike {options : WindowOptions} {keys : List Text} {f g : Text → Prop}
    {d e : WindowDecision} (hv : Takes options now keys f v v' d)
    (hu : Takes options now keys g u u' e) (h : Alike v u) : Alike v' u' := by
  intro k
  by_cases hk : k ∈ keys
  · obtain ⟨i, _, hi⟩ := hv.self k hk
    obtain ⟨j, _, hj⟩ := hu.self k hk
    rw [hi, hj, h.added, counted, counted]
    rcases h.cases k with ⟨hn, hn'⟩ | ⟨w, x, hw, hx, hs⟩
    · rw [hn, hn']
      split_ifs <;> rfl
    · rw [hw, hx]
      obtain ⟨hc, he, hm⟩ := shape_eq hs
      split_ifs <;> simp [MemoryWindow.shape, hc, he, hm]
  · rw [hv.other k hk, hu.other k hk]
    exact h k

/-- **Two counters.** From windows that are alike, the same call is answered alike. -/
theorem Effect.alike {f g : Text → Prop} {op : Op} {a b : Answer} (hv : Effect f now v op a v')
    (hu : Effect g now u op b u') (hop : ∀ key id, op ≠ .refund key id) (h : Alike v u) :
    a.reply = b.reply ∧ Alike v' u' := by
  cases op with
  | take keys options =>
    obtain ⟨d, rfl, hd⟩ := hv
    obtain ⟨e, rfl, he⟩ := hu
    have h' := hd.alike he h
    refine ⟨?_, h'⟩
    show Reply.took d.limited d.count d.retryAfterMs d.windows.keys =
      Reply.took e.limited e.count e.retryAfterMs e.windows.keys
    rw [hd.limited, he.limited, hd.count, he.count, hd.retryAfterMs, he.retryAfterMs, h.passes,
      h.retry, h'.top, Table.keys, Table.keys, hd.windows, he.windows, h'.keys_idsOf]
  | peek key =>
    obtain ⟨rfl, rfl⟩ := hv
    obtain ⟨rfl, rfl⟩ := hu
    refine ⟨congrArg Reply.peeked ?_, h⟩
    rcases h.cases key with ⟨hn, hn'⟩ | ⟨w, x, hw, hx, hs⟩
    · rw [hn, hn']
    · obtain ⟨hc, he, _⟩ := shape_eq hs
      rw [hw, hx, Option.map_some, Option.map_some, hc, he]
  | refund key id => exact absurd rfl (hop key id)
  | delete keys =>
    obtain ⟨rfl, hv⟩ := hv
    obtain ⟨rfl, hu⟩ := hu
    refine ⟨rfl, fun k => ?_⟩
    rw [hv, hu]
    split_ifs
    · rfl
    · exact h k
  | markOnce key =>
    obtain ⟨rfl, hv⟩ := hv
    obtain ⟨rfl, hu⟩ := hu
    refine ⟨congrArg Reply.marked (h.elim false (fun s => !s.2.2) key), fun k => ?_⟩
    rw [hv, hu]
    split_ifs
    · have hk := congrArg (Option.map fun s : ℤ × Time × Bool => (s.1, s.2.1, true)) (h k)
      rw [Option.map_map, Option.map_map] at hk ⊢
      exact hk
    · exact h k
  | prune =>
    obtain ⟨rfl, rfl⟩ := hv
    obtain ⟨rfl, rfl⟩ := hu
    exact ⟨rfl, h⟩

/-- A refund of the same window leaves them alike. -/
theorem Effect.alike_refund {f g : Text → Prop} {key i j : Text} {a b : Answer}
    (hv : Effect f now v (.refund key i) a v') (hu : Effect g now u (.refund key j) b u')
    (hsame : SameWindow v u key i j) (h : Alike v u) : a.reply = b.reply ∧ Alike v' u' := by
  obtain ⟨rfl, hv⟩ := hv
  obtain ⟨rfl, hu⟩ := hu
  refine ⟨rfl, fun k => ?_⟩
  rw [hv, hu]
  split_ifs with hk
  · subst hk
    rcases h.cases k with ⟨hn, hn'⟩ | ⟨w, x, hw, hx, hs⟩
    · rw [hn, hn']
      rfl
    · obtain ⟨hc, he, hm⟩ := shape_eq hs
      have hid := hsame w x hw hx
      rw [hw, hx, Option.map_some, Option.map_some, Option.map_some, Option.map_some, refunded,
        refunded]
      by_cases hi : w.id = i
      · rw [if_pos hi, if_pos (hid.mp hi), MemoryWindow.shape, MemoryWindow.shape, hc, he, hm]
      · rw [if_neg hi, if_neg (hi ∘ hid.mpr), hs]
  · exact h k

end Alike

/-! ## Two clients -/

section Clients

variable {σ τ : Type} {f : σ → Time → Op → Answer × σ} {g : τ → Time → Op → Answer × τ}
  (A : Lawful f) (B : Lawful g) {now later : Time} {s : σ} {t : τ} {a : Client σ} {b : Client τ}
  {i j : WindowIds}

/-- The tickets of one take name the same windows. -/
def Paired (now : Time) (s : σ) (t : τ) (i j : WindowIds) : Prop :=
  ∀ k, (i.get? k = none ∧ j.get? k = none) ∨ ∃ x y, i.get? k = some x ∧ j.get? k = some y ∧
    A.used s x ∧ B.used t y ∧ SameWindow (A.view s now) (B.view t now) k x y

/-- The clients' counters show windows that are alike, and their tickets name the same ones. -/
structure Together (now : Time) (a : Client σ) (b : Client τ) : Prop where
  left : A.Inv now a.counter
  right : B.Inv now b.counter
  alike : Alike (A.view a.counter now) (B.view b.counter now)
  tickets : List.Forall₂ (Paired A B now a.counter b.counter) a.tickets b.tickets

variable {A B}

theorem Lawful.view_sub (hle : now ≤ later) {k : Text} {w : MemoryWindow}
    (h : A.view s later k = some w) : A.view s now k = some w := by
  rw [A.view_later hle] at h
  exact (Option.filter_eq_some_iff.mp h).1

theorem Paired.mono (h : Paired A B now s t i j) (hle : now ≤ later) :
    Paired A B later s t i j := by
  intro k
  rcases h k with hnone | ⟨x, y, hx, hy, hux, huy, hsame⟩
  · exact .inl hnone
  · refine .inr ⟨x, y, hx, hy, hux, huy, fun w w' hw hw' => ?_⟩
    exact hsame w w' (Lawful.view_sub hle hw) (Lawful.view_sub hle hw')

theorem Together.mono (h : Together A B now a b) (hle : now ≤ later) : Together A B later a b := by
  refine ⟨A.inv_later hle h.left, B.inv_later hle h.right, fun k => ?_,
    h.tickets.imp fun _ _ hp => hp.mono hle⟩
  rw [A.view_later hle, B.view_later hle]
  rcases h.alike.cases k with ⟨hv, hu⟩ | ⟨w, x, hv, hu, hs⟩
  · rw [hv, hu]
  · rw [hv, hu, Option.filter_some, Option.filter_some, (shape_eq hs).2.1]
    split_ifs
    · exact congrArg some hs
    · rfl

/-- A call begins no window with the id of a ticket. -/
theorem Paired.call {p q : Op} (h : Paired A B now s t i j) (hs : A.Inv now s) (ht : B.Inv now t)
    (halike : Alike (A.view s now) (B.view t now)) :
    Paired A B now (f s now p).2 (g t now q).2 i j := by
  intro k
  rcases h k with hnone | ⟨x, y, hx, hy, hux, huy, hsame⟩
  · exact .inl hnone
  · refine .inr ⟨x, y, hx, hy, A.used_call p hs hux, B.used_call q ht huy, fun w w' hw hw' => ?_⟩
    rcases (A.effect p hs).source hw with ⟨w₀, hv, hid⟩ | ⟨hv, hid⟩
    · rcases (B.effect q ht).source hw' with ⟨w₁, hu, hid'⟩ | ⟨hu, _⟩
      · rw [hid, hid']
        exact hsame w₀ w₁ hv hu
      · rcases halike.cases k with ⟨hn, _⟩ | ⟨_, _, _, hu', _⟩
        · exact absurd (hv.symm.trans hn) (by simp)
        · exact absurd (hu.symm.trans hu') (by simp)
    · rcases (B.effect q ht).source hw' with ⟨w₁, hu, _⟩ | ⟨_, hid'⟩
      · rcases halike.cases k with ⟨_, hn⟩ | ⟨_, _, hv', _, _⟩
        · exact absurd (hu.symm.trans hn) (by simp)
        · exact absurd (hv.symm.trans hv') (by simp)
      · exact iff_of_false (fun h => hid (h ▸ hux)) fun h => hid' (h ▸ huy)

/-- What a ticket of a take names. -/
theorem Takes.get?_windows {options : WindowOptions} {keys : List Text} {fresh : Text → Prop}
    {v v' : View} {d : WindowDecision} (h : Takes options now keys fresh v v' d) (k : Text) :
    d.windows.get? k = if k ∈ keys then (v' k).map (·.id) else none := by
  have hiff : ∀ id, d.windows.get? k = some id ↔ k ∈ keys ∧ ∃ w, v' k = some w ∧ w.id = id := by
    intro id
    rw [Table.get?, Option.map_eq_some_iff]
    constructor
    · rintro ⟨e, he, rfl⟩
      obtain ⟨hmem, rfl⟩ := Table.find?_eq_some_iff.mp he
      rw [h.windows] at hmem
      obtain ⟨k', hk', he'⟩ := List.mem_filterMap.mp hmem
      obtain ⟨w, hw, rfl⟩ := Option.map_eq_some_iff.mp he'
      exact ⟨hk', w, hw, rfl⟩
    · rintro ⟨hk, w, hw, rfl⟩
      refine ⟨(k, w.id), Table.find?_eq_some_iff.mpr ⟨?_, rfl⟩, rfl⟩
      rw [h.windows]
      exact List.mem_filterMap.mpr ⟨k, hk, by rw [hw]; rfl⟩
  ext id
  rw [hiff]
  split_ifs with hk
  · rw [Option.map_eq_some_iff]
    exact and_iff_right hk
  · exact iff_of_false (fun hid => hk hid.1) (by simp)

/-- The tickets that a call gives out. -/
theorem Together.tickets_call {p : Op} (h : Together A B now a b) (hop : ∀ k i, p ≠ .refund k i) :
    List.Forall₂ (Paired A B now (f a.counter now p).2 (g b.counter now p).2)
      (f a.counter now p).1.tickets (g b.counter now p).1.tickets := by
  have hv := A.effect p h.left
  have hu := B.effect p h.right
  have halike := (hv.alike hu hop h.alike).2
  cases p with
  | take keys options =>
    obtain ⟨d, hd, htd⟩ := hv
    obtain ⟨e, he, hte⟩ := hu
    rw [hd, he]
    refine List.Forall₂.cons (fun k => ?_) List.Forall₂.nil
    rw [htd.get?_windows, hte.get?_windows]
    split_ifs with hk
    · rcases halike.cases k with ⟨hw, hx⟩ | ⟨w, x, hw, hx, _⟩
      · rw [hw, hx]
        exact .inl ⟨rfl, rfl⟩
      · rw [hw, hx]
        refine .inr ⟨w.id, x.id, rfl, rfl, (A.sound (A.inv _ h.left) hw).2.2,
          (B.sound (B.inv _ h.right) hx).2.2, fun w' x' hw' hx' => ?_⟩
        cases hw.symm.trans hw'
        cases hx.symm.trans hx'
        exact iff_of_true rfl rfl
    · exact .inl ⟨rfl, rfl⟩
  | refund key id => exact absurd rfl (hop key id)
  | peek key => rw [hv.1, hu.1]; exact List.Forall₂.nil
  | delete keys => rw [hv.1, hu.1]; exact List.Forall₂.nil
  | markOnce key => rw [hv.1, hu.1]; exact List.Forall₂.nil
  | prune => rw [hv.1, hu.1]; exact List.Forall₂.nil

/-- What both counters do with one call, other than a refund. -/
theorem Together.call {p : Op} (h : Together A B now a b) (hop : ∀ k i, p ≠ .refund k i) :
    (f a.counter now p).1.reply = (g b.counter now p).1.reply ∧
      Together A B now ⟨(f a.counter now p).2, a.tickets ++ (f a.counter now p).1.tickets⟩
        ⟨(g b.counter now p).2, b.tickets ++ (g b.counter now p).1.tickets⟩ := by
  obtain ⟨hreply, halike⟩ := (A.effect p h.left).alike (B.effect p h.right) hop h.alike
  refine ⟨hreply, A.inv p h.left, B.inv p h.right, halike, ?_⟩
  exact List.rel_append (h.tickets.imp fun _ _ hp => hp.call h.left h.right h.alike)
    (h.tickets_call hop)

/-- A refund of one window. -/
theorem Together.refund {k x y : Text} (h : Together A B now a b)
    (hsame : SameWindow (A.view a.counter now) (B.view b.counter now) k x y) :
    (f a.counter now (.refund k x)).1.reply = (g b.counter now (.refund k y)).1.reply ∧
      Together A B now ⟨(f a.counter now (.refund k x)).2,
          a.tickets ++ (f a.counter now (.refund k x)).1.tickets⟩
        ⟨(g b.counter now (.refund k y)).2,
          b.tickets ++ (g b.counter now (.refund k y)).1.tickets⟩ := by
  have hv := A.effect (.refund k x) h.left
  have hu := B.effect (.refund k y) h.right
  obtain ⟨hreply, halike⟩ := hv.alike_refund hu hsame h.alike
  refine ⟨hreply, A.inv _ h.left, B.inv _ h.right, halike, ?_⟩
  rw [hv.1, hu.1]
  simp only [Answer.tickets, List.append_nil]
  exact h.tickets.imp fun _ _ hp => hp.call h.left h.right h.alike

/-- The id a refund names. -/
def Client.ticket (a : Client σ) (n : ℕ) (key : Text) : Option Text :=
  a.tickets[n]?.bind (Table.get? · key)

theorem Request.op_refund (n : ℕ) (key : Text) :
    (Request.refund n key).op a.tickets = (a.ticket n key).map (.refund key) := rfl

theorem Together.ticket (h : Together A B now a b) (n : ℕ) (key : Text) :
    (a.ticket n key = none ∧ b.ticket n key = none) ∨
      ∃ x y, a.ticket n key = some x ∧ b.ticket n key = some y ∧
        SameWindow (A.view a.counter now) (B.view b.counter now) key x y := by
  unfold Client.ticket
  by_cases hn : n < a.tickets.length
  · have hn' : n < b.tickets.length := h.tickets.length_eq ▸ hn
    rw [List.getElem?_eq_getElem hn, List.getElem?_eq_getElem hn', Option.bind_some,
      Option.bind_some]
    rcases List.Forall₂.get h.tickets hn hn' key with hnone | ⟨x, y, hx, hy, _, _, hsame⟩
    · exact .inl hnone
    · exact .inr ⟨x, y, hx, hy, hsame⟩
  · have hn' : ¬ n < b.tickets.length := h.tickets.length_eq ▸ hn
    rw [List.getElem?_eq_none (not_lt.mp hn), List.getElem?_eq_none (not_lt.mp hn')]
    exact .inl ⟨rfl, rfl⟩

/-- **A request.** -/
theorem Together.step {c : Call} (h : Together A B now a b) (hle : now ≤ c.time) :
    (a.step f c).1 = (b.step g c).1 ∧ Together A B c.time (a.step f c).2 (b.step g c).2 := by
  have h := h.mono hle
  unfold Client.step
  cases hc : c.request with
  | take keys options => exact h.call fun _ _ h => by cases h
  | peek key => exact h.call fun _ _ h => by cases h
  | delete keys => exact h.call fun _ _ h => by cases h
  | markOnce key => exact h.call fun _ _ h => by cases h
  | prune => exact h.call fun _ _ h => by cases h
  | refund n key =>
    rcases h.ticket n key with ⟨hx, hy⟩ | ⟨x, y, hx, hy, hsame⟩
    · rw [Request.op_refund, Request.op_refund, hx, hy]
      exact ⟨rfl, h⟩
    · rw [Request.op_refund, Request.op_refund, hx, hy]
      exact h.refund hsame

end Clients

/-! ## What a counter keeps to -/

section Kept

variable {σ : Type} {f : σ → Time → Op → Answer × σ} (A : Lawful f) (start : σ)

/-- The client after the calls. -/
def after (f : σ → Time → Op → Answer × σ) (start : σ) (calls : List Call) : Client σ :=
  final (Client.step f) ⟨start, []⟩ calls

/-- The live windows after the calls. -/
def viewAfter (calls : List Call) (now : Time) : View := A.view (after f start calls).counter now

/-- The count of a key. -/
def countOf (v : View) (key : Text) : ℤ := (v key).elim 0 (·.count)

/-- The window the id names is live. -/
def IsLive (v : View) (key id : Text) : Prop := ∃ w, v key = some w ∧ w.id = id

/-- What every run of a client keeps to. -/
structure Kept (calls : List Call) : Prop where
  /-- A take counts on all of its keys or refuses on all. -/
  allOrNone : ∀ pre c post keys options, calls = pre ++ c :: post →
    c.request = .take keys options → ∃ limited count retryAfterMs windows,
      ((after f start pre).step f c).1 = .took limited count retryAfterMs windows ∧
      (∀ k ∈ keys.1, countOf (viewAfter A start (pre ++ [c]) c.time) k =
        countOf (viewAfter A start pre c.time) k +
          if limited then options.refusedWeight else options.weight) ∧
      ∀ k, k ∉ keys.1 → viewAfter A start (pre ++ [c]) c.time k = viewAfter A start pre c.time k
  /-- The count of a window stays within the limit of the takes that count in it. -/
  bounded : ∀ key M, (∀ c ∈ calls, ∀ keys options, c.request = .take keys options →
      key ∈ keys.1 → options.refusedWeight = 0 ∧ options.max ≤ M) →
    ∀ now w, lastTime Call.time 0 calls ≤ now → viewAfter A start calls now key = some w →
      w.count ≤ M
  nonneg : ∀ key now w, lastTime Call.time 0 calls ≤ now →
    viewAfter A start calls now key = some w → 0 ≤ w.count
  /-- A refund gives one back to the window its ticket names, and changes nothing else. -/
  refunds : ∀ pre c post n key, calls = pre ++ c :: post → c.request = .refund n key → ∀ k,
    viewAfter A start (pre ++ [c]) c.time k = (viewAfter A start pre c.time k).map fun w =>
      if k = key ∧ (after f start pre).ticket n key = some w.id then
        { w with count := max 0 (w.count - 1) } else w
  /-- The window that a ticket names does not come back. -/
  ended : ∀ pre mid post n key id, calls = pre ++ mid ++ post →
    (after f start pre).ticket n key = some id →
    ¬ IsLive (viewAfter A start pre (lastTime Call.time 0 pre)) key id →
    ¬ IsLive (viewAfter A start (pre ++ mid) (lastTime Call.time 0 (pre ++ mid))) key id

variable {A start} {now : Time} {a : Client σ} {c : Call}

/-- What one request does to the live windows. -/
theorem Client.step_spec (h : A.Inv c.time a.counter) :
    (c.request.op a.tickets = none ∧ (a.step f c).2 = a) ∨
      ∃ op, c.request.op a.tickets = some op ∧ (a.step f c).1 = (f a.counter c.time op).1.reply ∧
        (a.step f c).2.counter = (f a.counter c.time op).2 ∧
        Effect (fun id => ¬ A.used a.counter id) c.time (A.view a.counter c.time) op
          (f a.counter c.time op).1 (A.view (f a.counter c.time op).2 c.time) := by
  unfold Client.step
  cases hop : c.request.op a.tickets with
  | none => exact .inl ⟨rfl, rfl⟩
  | some op => exact .inr ⟨op, rfl, rfl, rfl, A.effect op h⟩

theorem after_concat (pre : List Call) (c : Call) :
    after f start (pre ++ [c]) = ((after f start pre).step f c).2 := final_append _ _ _

/-- A client is together with itself. -/
theorem together_after (h : A.Inv 0 start) {calls : List Call} (ht : Ticks Call.time 0 calls) :
    Together A A (lastTime Call.time 0 calls) (after f start calls) (after f start calls) :=
  invariant (fun now a => Together A A now a a) (fun _ _ _ h hle _ => (h.step hle).2)
    ⟨h, h, fun _ => rfl, List.Forall₂.nil⟩ ht fun _ _ => trivial

theorem Together.used_ticket (h : Together A A now a a) {n : ℕ} {key id : Text}
    (hid : a.ticket n key = some id) : A.used a.counter id := by
  obtain ⟨t, ht, hget⟩ := Option.bind_eq_some_iff.mp hid
  obtain ⟨hn, rfl⟩ := List.getElem?_eq_some_iff.mp ht
  rcases List.Forall₂.get h.tickets hn hn key with ⟨hx, _⟩ | ⟨x, _, hx, _, hux, _⟩
  · exact absurd (hx.symm.trans hget) (by simp)
  · cases hx.symm.trans hget
    exact hux

theorem Takes.countOf {options : WindowOptions} {keys : List Text} {fresh : Text → Prop}
    {v v' : View} {d : WindowDecision} (h : Takes options now keys fresh v v' d) {k : Text}
    (hk : k ∈ keys) : countOf v' k = countOf v k +
      if d.limited then options.refusedWeight else options.weight := by
  obtain ⟨id, _, heq⟩ := h.self k hk
  have hadd : added options v keys = if d.limited then options.refusedWeight else options.weight := by
    rw [h.limited]
    rfl
  unfold Windows.countOf
  rw [heq, counted, ← hadd]
  split_ifs with hpos
  · cases v k <;> rfl
  · have := added_nonneg options v keys
    omega

/-- A take that may only count up to `M` leaves counts up to `M`. -/
theorem Takes.bounded {options : WindowOptions} {keys : List Text} {fresh : Text → Prop}
    {v v' : View} {d : WindowDecision} (h : Takes options now keys fresh v v' d) {k : Text} {M : ℤ}
    (hM : k ∈ keys → options.refusedWeight = 0 ∧ options.max ≤ M)
    (hv : ∀ w, v k = some w → w.count ≤ M) {w' : MemoryWindow} (hw : v' k = some w') :
    w'.count ≤ M := by
  have hadd : k ∈ keys → added options v keys = 0 ∨
      (added options v keys = options.weight ∧
        (v k).elim 0 (·.count) + options.weight ≤ options.max) := by
    intro hk
    unfold added
    split_ifs with hany
    · exact .inl (hM hk).1
    · refine .inr ⟨rfl, not_lt.mp fun hlt => hany ?_⟩
      exact List.any_eq_true.mpr ⟨k, hk, decide_eq_true hlt⟩
  rcases h.origin hw with ⟨w, hvk, _, _, hcount⟩ | ⟨hvk, hk, _, hpos, hcount⟩
  · have hold := hv w hvk
    rw [hcount]
    split_ifs with hk
    · rcases hadd hk with hzero | ⟨hweight, hle⟩
      · omega
      · rw [hvk, Option.elim_some] at hle
        have := (hM hk).2
        omega
    · omega
  · rcases hadd hk with hzero | ⟨hweight, hle⟩
    · omega
    · rw [hvk, Option.elim_none] at hle
      have := (hM hk).2
      omega

theorem Request.op_eq_take {r : Request} {tickets : List WindowIds} {keys : DistinctKeys}
    {options : WindowOptions} (h : r.op tickets = some (.take keys options)) :
    r = .take keys options := by
  cases r with
  | take keys' options' =>
    cases h
    rfl
  | refund n key =>
    obtain ⟨_, _, heq⟩ := Option.map_eq_some_iff.mp h
    cases heq
  | _ => cases h

theorem bounded_after (h : A.Inv 0 start) (hempty : ∀ k, A.view start 0 k = none) {calls : List Call} (ht : Ticks Call.time 0 calls)
    {key : Text} {M : ℤ} (hM : ∀ c ∈ calls, ∀ keys options, c.request = .take keys options →
      key ∈ keys.1 → options.refusedWeight = 0 ∧ options.max ≤ M) :
    ∀ w, viewAfter A start calls (lastTime Call.time 0 calls) key = some w → w.count ≤ M := by
  have hinv : A.Inv (lastTime Call.time 0 calls) (after f start calls).counter ∧
      ∀ w, A.view (after f start calls).counter (lastTime Call.time 0 calls) key = some w →
        w.count ≤ M := by
    refine invariant (fun now (a : Client σ) => A.Inv now a.counter ∧
      ∀ w, A.view a.counter now key = some w → w.count ≤ M) ?_ ⟨h, fun w hw => ?_⟩ ht hM
    · intro now a c ⟨hinv, hle⟩ hnow hc
      have hinv := A.inv_later hnow hinv
      have hle : ∀ w, A.view a.counter c.time key = some w → w.count ≤ M := fun w hw =>
        hle w (Lawful.view_sub hnow hw)
      rcases Client.step_spec hinv with ⟨_, hsame⟩ | ⟨op, hop, _, hcounter, heffect⟩
      · rw [hsame]
        exact ⟨hinv, hle⟩
      · rw [hcounter]
        refine ⟨A.inv op hinv, fun w' hw' => ?_⟩
        by_cases htake : ∃ keys options, op = .take keys options
        · obtain ⟨keys, options, rfl⟩ := htake
          obtain ⟨d, _, htakes⟩ := heffect
          exact htakes.bounded (hc keys options (Request.op_eq_take hop)) hle hw'
        · obtain ⟨w, hw, _, _, hcount⟩ := heffect.origin (fun keys options heq =>
            htake ⟨keys, options, heq⟩) hw'
          have := hle w hw
          have := (A.sound hinv hw).1
          rcases hcount with hcount | ⟨_, hcount⟩ <;> omega
    · exact absurd (hempty key ▸ hw) (by simp)
  exact hinv.2

/-- A window that has ended does not come back: its id is not handed out again. -/
theorem notLive_final {key id : Text} (h : A.Inv now a.counter) (hused : A.used a.counter id)
    (hnot : ¬ IsLive (A.view a.counter now) key id) {calls : List Call}
    (ht : Ticks Call.time now calls) :
    ¬ IsLive (A.view (final (Client.step f) a calls).counter (lastTime Call.time now calls))
      key id := by
  have hinv : A.Inv (lastTime Call.time now calls) (final (Client.step f) a calls).counter ∧
      A.used (final (Client.step f) a calls).counter id ∧
      ¬ IsLive (A.view (final (Client.step f) a calls).counter (lastTime Call.time now calls))
        key id := by
    refine invariant (fun now (a : Client σ) => A.Inv now a.counter ∧ A.used a.counter id ∧
      ¬ IsLive (A.view a.counter now) key id) ?_ ⟨h, hused, hnot⟩ ht fun _ _ => trivial
    intro now a c ⟨hinv, hused, hnot⟩ hle _
    have hinv := A.inv_later hle hinv
    have hnot : ¬ IsLive (A.view a.counter c.time) key id := fun ⟨w, hw, hwid⟩ =>
      hnot ⟨w, Lawful.view_sub hle hw, hwid⟩
    rcases Client.step_spec hinv with ⟨_, hsame⟩ | ⟨op, _, _, hcounter, heffect⟩
    · rw [hsame]
      exact ⟨hinv, hused, hnot⟩
    · rw [hcounter]
      refine ⟨A.inv op hinv, A.used_call op hinv hused, fun ⟨w', hw', hwid⟩ => ?_⟩
      rcases heffect.source hw' with ⟨w, hw, hsame⟩ | ⟨_, hfresh⟩
      · exact hnot ⟨w, hw, hsame.symm.trans hwid⟩
      · exact hfresh (hwid ▸ hused)
  exact hinv.2.2

/-- **The runs of a client.** -/
theorem kept (h : A.Inv 0 start) (hempty : ∀ k, A.view start 0 k = none) {calls : List Call}
    (ht : Ticks Call.time 0 calls) : Kept A start calls := by
  have hstep : ∀ {pre c post}, calls = pre ++ c :: post →
      Together A A c.time (after f start pre) (after f start pre) := by
    intro pre c post heq
    rw [heq] at ht
    obtain ⟨hpre, hle, _⟩ := ticks_append.mp ht
    exact (together_after h hpre).mono hle
  refine ⟨?_, ?_, ?_, ?_, ?_⟩
  · intro pre c post keys options heq hc
    have hinv := (hstep heq).left
    have hop : c.request.op (after f start pre).tickets = some (.take keys options) := by
      rw [hc]
      rfl
    rcases Client.step_spec hinv with ⟨hnone, _⟩ | ⟨op, hop', hreply, hcounter, heffect⟩
    · exact absurd (hnone.symm.trans hop) (by simp)
    · cases hop.symm.trans hop'
      obtain ⟨d, hd, htakes⟩ := heffect
      rw [hd] at hreply
      refine ⟨_, _, _, _, hreply, fun k hk => ?_, fun k hk => ?_⟩
      · unfold viewAfter
        rw [after_concat, hcounter]
        exact htakes.countOf hk
      · unfold viewAfter
        rw [after_concat, hcounter]
        exact htakes.other k hk
  · intro key M hM now w hnow hw
    exact bounded_after h hempty ht hM w (Lawful.view_sub hnow hw)
  · intro key now w hnow hw
    exact (A.sound (A.inv_later hnow (together_after h ht).left) hw).1
  · intro pre c post n key heq hc k
    have hop := Request.op_refund (a := after f start pre) n key
    rw [← hc] at hop
    unfold viewAfter
    rw [after_concat]
    rcases Client.step_spec (hstep heq).left with ⟨hnone, hsame⟩ | ⟨op, hop', _, hcounter, heffect⟩
    · rw [hop, Option.map_eq_none_iff] at hnone
      rw [hsame, hnone]
      simp
    · rw [hop, Option.map_eq_some_iff] at hop'
      obtain ⟨id, hid, rfl⟩ := hop'
      rw [hcounter, heffect.2 k, hid]
      by_cases hk : k = key
      · rw [if_pos hk]
        refine congrArg (Option.map · _) (funext fun w => ?_)
        unfold refunded
        simp only [hk, true_and, Option.some.injEq, eq_comm]
      · simp [hk]
  · intro pre mid post n key id heq hid hlive
    rw [heq, ticks_append] at ht
    obtain ⟨hpre, hmid⟩ := ticks_append.mp ht.1
    have htogether := together_after h hpre
    unfold viewAfter after
    rw [lastTime_append, final_append]
    exact notLive_final htogether.left (htogether.used_ticket hid) hlive hmid

end Kept

end BunMail.Utils.Windows
