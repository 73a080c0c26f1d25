import BunMail.Utils.SharedCounter

/-!
# Refunds through the shared counter

Whatever becomes of the backend between a take and its refund, a refund gives one back to the window
its take was counted in, once, or to none.
-/

namespace BunMail.Utils.Windows

open Timed

/-- A window of a store: memory, or a backend. -/
structure WindowRef where
  store : Option ℕ
  key : Text
  id : Text

/-- The backend that a call works on or was answered by, with its generation. -/
def Progress.source : Progress → Source
  | .sent backend generation _ => some (backend, generation)
  | .ran backend generation _ _ => some (backend, generation)
  | .answered source _ => source
  | .skipped => none

/-- Only a refund with its id lowers a window, and by one. -/
theorem Lawful.lowered {σ : Type} {f : σ → Time → Op → Answer × σ} (A : Lawful f) {s : σ}
    {now : Time} {op : Op} {k : Text} {w w' : MemoryWindow} (h : A.Inv now s)
    (hw : A.view s now k = some w) (hw' : A.view (f s now op).2 now k = some w')
    (hlt : w'.count < w.count) :
    op = .refund k w.id ∧ w'.count = w.count - 1 ∧ 0 ≤ w'.count := by
  have heffect := A.effect op h
  by_cases hop : ∃ keys options, op = .take keys options
  · obtain ⟨keys, options, rfl⟩ := hop
    obtain ⟨d, _, htakes⟩ := heffect
    rcases htakes.origin hw' with ⟨w₀, hw₀, _, _, hcount⟩ | ⟨hnone, _⟩
    · cases hw.symm.trans hw₀
      have := added_nonneg options (A.view s now) keys.1
      split_ifs at hcount <;> omega
    · exact absurd (hw.symm.trans hnone) (by simp)
  · obtain ⟨w₀, hw₀, _, _, hcount⟩ := heffect.origin (fun keys options heq =>
      hop ⟨keys, options, heq⟩) hw'
    cases hw.symm.trans hw₀
    have := (A.sound h hw).1
    rcases hcount with hcount | ⟨rfl, hcount⟩
    · omega
    · exact ⟨rfl, by omega, by omega⟩

namespace SharedWindowCounter

variable {s s' : SharedWindowCounter} {uuid : ℕ → Text} {now : Time} {e : Event} {W : WindowRef}
  {n : ℕ}

/-- The live windows of a store. -/
def view (s : SharedWindowCounter) (now : Time) : Option ℕ → View
  | none => s.localCounter.view now
  | some b => (s.backends b).view now

/-- The event lowers the count of a window, from `n` to `n'`. -/
def Lowers (uuid : ℕ → Text) (s : SharedWindowCounter) (e : Event) (W : WindowRef) (n n' : ℤ) :
    Prop :=
  ∃ w w', s.view e.time W.store W.key = some w ∧
    (s.step uuid e).view e.time W.store W.key = some w' ∧ w.id = W.id ∧ w'.id = W.id ∧
    w.count = n ∧ w'.count = n' ∧ n' < n

/-- The call that the event does the work of. -/
def worker (s : SharedWindowCounter) (e : Event) : Option ℕ :=
  match e.act with
  | .call _ => some s.calls.length
  | .run i => s.wire[i]?.map (·.call)
  | _ => none

/-- The call is a refund whose ticket names the window. -/
def Names (s : SharedWindowCounter) (call : ℕ) (W : WindowRef) : Prop :=
  ∃ take key progress source windows id, s.calls[call]? = some (.refund take key, progress) ∧
    s.ids take = some (source, windows) ∧ windows.get? key = some id ∧
    W = ⟨source.map Prod.fst, key, id⟩

/-! ## Ids and their stores -/

theorem splitId_append {tag id : Text} (h : ':' ∉ tag) : splitId (tag ++ ':' :: id) = (tag, id) := by
  unfold splitId
  rw [if_pos (by simp)]
  have hp : ∀ c ∈ tag, decide (c ≠ ':') = true := fun c hc => decide_eq_true fun heq => h (heq ▸ hc)
  rw [List.takeWhile_append_of_pos hp, List.dropWhile_append_of_pos hp]
  simp

theorem colon_notMem_name (source : Source) : ':' ∉ Source.name source := by
  cases source with
  | none => decide
  | some t =>
    intro h
    rcases List.mem_cons.mp h with h | h
    · exact absurd h (by decide)
    · exact absurd (Text.isDigit_of_mem_decimal h) (by decide)

/-- The id a take returned is that of its window, tagged with its store. -/
theorem windowId_eq {take : ℕ} {key windowId : Text} (h : s.windowId take key = some windowId) :
    ∃ source windows id, s.ids take = some (source, windows) ∧ windows.get? key = some id ∧
      splitId windowId = (Source.name source, id) := by
  obtain ⟨⟨source, windows⟩, hids, hget⟩ := Option.bind_eq_some_iff.mp h
  rw [tagWindows, Table.get?_mapValues] at hget
  obtain ⟨id, hid, rfl⟩ := Option.map_eq_some_iff.mp hget
  refine ⟨source, windows, id, hids, hid, ?_⟩
  rw [List.append_assoc]
  exact splitId_append (colon_notMem_name source)


/-! ## What stays -/

/-- Calls keep their requests and stay on their store or leave it, and the takes that were answered
keep their ids. -/
structure Extends (s s' : SharedWindowCounter) : Prop where
  calls : ∀ (n : ℕ) (c : Request × Progress), s.calls[n]? = some c → ∃ progress : Progress,
    s'.calls[n]? = some (c.1, progress) ∧ (progress.source = none ∨ progress.source = c.2.source)
  ids : ∀ n t, s.ids n = some t → s'.ids n = some t

theorem Names.mono (h : s.Names n W) (hs : Extends s s') : s'.Names n W := by
  obtain ⟨take, key, _, source, windows, id, hcall, hids, hget, hW⟩ := h
  obtain ⟨progress, hcall', _⟩ := hs.calls n _ hcall
  exact ⟨take, key, progress, source, windows, id, hcall', hs.ids take _ hids, hget, hW⟩

theorem Extends.trans {s'' : SharedWindowCounter} (h : Extends s s') (h' : Extends s' s'') :
    Extends s s'' := by
  refine ⟨fun n c hc => ?_, fun n t ht => h'.ids n t (h.ids n t ht)⟩
  obtain ⟨progress, hc, hsource⟩ := h.calls n c hc
  obtain ⟨progress', hc', hsource'⟩ := h'.calls n (c.1, progress) hc
  refine ⟨progress', hc', hsource'.elim .inl fun heq => ?_⟩
  rw [heq]
  exact hsource

theorem extends_of_calls_eq (h : s'.calls = s.calls) : Extends s s' := by
  refine ⟨fun n c hc => ⟨c.2, by rw [h]; exact hc, .inr rfl⟩, fun n t ht => ?_⟩
  unfold SharedWindowCounter.ids at ht ⊢
  rw [h]
  exact ht

theorem extends_concat {c : Request × Progress} (h : s'.calls = s.calls ++ [c]) : Extends s s' := by
  have hget : ∀ (n : ℕ) c', s.calls[n]? = some c' → s'.calls[n]? = some c' := by
    intro n c' hc
    rw [h, List.getElem?_append_left (List.getElem?_eq_some_iff.mp hc).1]
    exact hc
  refine ⟨fun n c' hc => ⟨c'.2, hget n c' hc, .inr rfl⟩, fun n t ht => ?_⟩
  obtain ⟨c', hc, ht⟩ := Option.bind_eq_some_iff.mp ht
  unfold SharedWindowCounter.ids
  rw [hget n c' hc]
  exact ht

theorem getElem?_setProgress (call : ℕ) (progress : Progress) (n : ℕ) :
    (s.setProgress call progress).calls[n]? =
      if call = n then s.calls[n]?.map fun c => (c.1, progress) else s.calls[n]? := by
  unfold setProgress
  rw [List.getElem?_modify]
  split_ifs <;> simp

/-- A call that is not answered goes on. -/
theorem extends_setProgress {call : ℕ} {c : Request × Progress} {progress : Progress}
    (hc : s.calls[call]? = some c) (hnot : ∀ source answer, c.2 ≠ .answered source answer)
    (hsource : progress.source = none ∨ progress.source = c.2.source) :
    Extends s (s.setProgress call progress) := by
  have hget := getElem?_setProgress (s := s) call progress
  refine ⟨fun n c' hc' => ?_, fun n t ht => ?_⟩
  · rw [hget, hc']
    split_ifs with hn
    · subst hn
      cases hc.symm.trans hc'
      exact ⟨progress, rfl, hsource⟩
    · exact ⟨c'.2, rfl, .inr rfl⟩
  · obtain ⟨c', hc', ht⟩ := Option.bind_eq_some_iff.mp ht
    have hn : call ≠ n := by
      rintro rfl
      cases hc.symm.trans hc'
      cases hp : c.2 with
      | answered source answer => exact hnot source answer hp
      | _ =>
        rw [hp] at ht
        cases ht
    unfold SharedWindowCounter.ids
    rw [hget, if_neg hn, hc']
    exact ht

theorem length_setProgress {call : ℕ} {progress : Progress} :
    (s.setProgress call progress).calls.length = s.calls.length := List.length_modify _ _ _

/-! ## The invariant -/

/-- What every state of the process keeps to. -/
structure Sound (uuid : ℕ → Text) (now : Time) (s : SharedWindowCounter) : Prop where
  localCounter : MemoryWindowCounter.Inv now s.localCounter
  backends : ∀ b, RedisStore.Inv uuid now (s.backends b)
  /-- A generation is that of one backend. -/
  generations : ∀ c ∈ s.calls, ∀ b g, c.2.source = some (b, g) →
    g ≤ s.backendGeneration ∧ (g = s.backendGeneration → s.backend = some b)
  /-- A command is on its way to the backend of its call, while that waits for it. -/
  called : ∀ c ∈ s.wire, ∃ p, s.calls[c.call]? = some p ∧
    (p.2.source = none ∨ ∃ g, p.2.source = some (c.backend, g))
  distinct : (s.wire.map (·.call)).Nodup
  /-- A refund on its way is for the window that its ticket names. -/
  refunds : ∀ c ∈ s.wire, ∀ key id, c.op = .refund key id →
    s.Names c.call ⟨some c.backend, key, id⟩

theorem Sound.call_lt (h : Sound uuid now s) {c : Command} (hc : c ∈ s.wire) :
    c.call < s.calls.length := by
  obtain ⟨p, hp, _⟩ := h.called c hc
  exact (List.getElem?_eq_some_iff.mp hp).1

theorem called_mono (hext : Extends s s') {c : Command}
    (h : ∃ p, s.calls[c.call]? = some p ∧
      (p.2.source = none ∨ ∃ g, p.2.source = some (c.backend, g))) :
    ∃ p, s'.calls[c.call]? = some p ∧
      (p.2.source = none ∨ ∃ g, p.2.source = some (c.backend, g)) := by
  obtain ⟨p, hp, hsource⟩ := h
  obtain ⟨progress, hp', hsame⟩ := hext.calls _ p hp
  refine ⟨_, hp', hsame.elim .inl fun heq => ?_⟩
  rw [heq]
  exact hsource

/-- The parts of the state that a step may leave alone. -/
theorem Sound.of_parts (h : Sound uuid now s) (hext : Extends s s')
    (hlocal : MemoryWindowCounter.Inv now s'.localCounter)
    (hbackends : ∀ b, RedisStore.Inv uuid now (s'.backends b))
    (hgen : s'.backendGeneration = s.backendGeneration) (hbackend : s'.backend = s.backend)
    (hcalls : ∀ c ∈ s'.calls, ∀ b g, c.2.source = some (b, g) →
      (∃ c' ∈ s.calls, c'.2.source = some (b, g)) ∨
        (g = s.backendGeneration ∧ s.backend = some b))
    (hwire : s'.wire.Sublist s.wire) : Sound uuid now s' := by
  refine ⟨hlocal, hbackends, fun c hc b g hsource => ?_, fun c hc => ?_, ?_, fun c hc key id hop => ?_⟩
  · rw [hgen, hbackend]
    rcases hcalls c hc b g hsource with ⟨c', hc', hs⟩ | ⟨rfl, hb⟩
    · exact h.generations c' hc' b g hs
    · exact ⟨le_rfl, fun _ => hb⟩
  · exact called_mono hext (h.called c (hwire.subset hc))
  · exact (hwire.map _).nodup h.distinct
  · exact (h.refunds c (hwire.subset hc) key id hop).mono hext

theorem Sound.mono (h : Sound uuid now s) {later : Time} (hle : now ≤ later) :
    Sound uuid later s := by
  refine ⟨MemoryWindowCounter.lawful.inv_later hle h.localCounter, fun b => ?_, h.generations,
    h.called, h.distinct, h.refunds⟩
  exact RedisStore.inv_later hle (h.backends b)

section Steps

variable {request : Request} {op : Op}

theorem Sound.answerLocally (h : Sound uuid now s) :
    Sound uuid now (s.answerLocally now request op) := by
  refine h.of_parts (extends_concat rfl) (h.localCounter.call op) h.backends rfl rfl ?_
    (List.Sublist.refl _)
  intro c hc b g hsource
  rcases List.mem_append.mp hc with hc | hc
  · exact .inl ⟨c, hc, hsource⟩
  · rw [List.mem_singleton.mp hc] at hsource
    cases hsource

theorem Sound.skip (h : Sound uuid now s) : Sound uuid now (s.skip request) := by
  refine h.of_parts (extends_concat rfl) h.localCounter h.backends rfl rfl ?_ (List.Sublist.refl _)
  intro c hc b g hsource
  rcases List.mem_append.mp hc with hc | hc
  · exact .inl ⟨c, hc, hsource⟩
  · rw [List.mem_singleton.mp hc] at hsource
    cases hsource

/-- A command is sent to the backend that is installed. -/
theorem Sound.send (h : Sound uuid now s) {b : ℕ} (hb : s.backend = some b)
    (hop : ∀ key id, op = .refund key id →
      (s.send request b op).Names s.calls.length ⟨some b, key, id⟩) :
    Sound uuid now (s.send request b op) := by
  have hext : Extends s (s.send request b op) := extends_concat rfl
  refine ⟨h.localCounter, h.backends, fun c hc b' g hsource => ?_, fun c hc => ?_, ?_,
    fun c hc key id heq => ?_⟩
  · rcases List.mem_append.mp hc with hc | hc
    · exact h.generations c hc b' g hsource
    · rw [List.mem_singleton.mp hc] at hsource
      cases hsource
      exact ⟨le_rfl, fun _ => hb⟩
  · rcases List.mem_append.mp hc with hc | hc
    · exact called_mono hext (h.called c hc)
    · rw [List.mem_singleton.mp hc]
      refine ⟨(request, .sent b s.backendGeneration op), ?_, .inr ⟨_, rfl⟩⟩
      show (s.calls ++ [_])[s.calls.length]? = _
      rw [List.getElem?_append_right le_rfl, Nat.sub_self]
      rfl
  · show ((s.wire ++ [(⟨b, op, s.calls.length⟩ : Command)]).map Command.call).Nodup
    rw [List.map_append, List.nodup_append]
    refine ⟨h.distinct, List.nodup_singleton _, ?_⟩
    rintro x hx y hy rfl
    rw [List.map_singleton, List.mem_singleton] at hy
    obtain ⟨c, hc, rfl⟩ := List.mem_map.mp hx
    exact (h.call_lt hc).ne hy
  · rcases List.mem_append.mp hc with hc | hc
    · exact (h.refunds c hc key id heq).mono hext
    · rw [List.mem_singleton.mp hc] at heq ⊢
      exact hop key id heq

/-- A call that is not answered goes on, from the store it is on. -/
theorem Sound.setProgress (h : Sound uuid now s) {call : ℕ} {c : Request × Progress}
    {progress : Progress} (hc : s.calls[call]? = some c)
    (hnot : ∀ source answer, c.2 ≠ .answered source answer)
    (hsource : progress.source = none ∨ progress.source = c.2.source) :
    Sound uuid now (s.setProgress call progress) := by
  refine h.of_parts (extends_setProgress hc hnot hsource) h.localCounter h.backends rfl rfl ?_
    (List.Sublist.refl _)
  intro c' hc' b g hs
  obtain ⟨n, hn⟩ := List.mem_iff_getElem?.mp hc'
  rw [getElem?_setProgress] at hn
  split_ifs at hn with heq
  · subst heq
    rw [hc] at hn
    cases hn
    rcases hsource with hnone | hsame
    · exact absurd (hnone.symm.trans hs) (by simp)
    · exact .inl ⟨c, List.mem_of_getElem? hc, hsame.symm.trans hs⟩
  · exact .inl ⟨c', List.mem_of_getElem? hn, hs⟩

/-- How a call begins: not at all, on memory, or on the backend that is installed.  A refund begins
on the store that its ticket names. -/
def Begun (s : SharedWindowCounter) (now : Time) (request : Request) (s' : SharedWindowCounter) :
    Prop :=
  s' = s.skip request ∨
  (∃ op, s' = s.answerLocally now request op ∧
    ∀ key id, op = .refund key id → s'.Names s.calls.length ⟨none, key, id⟩) ∨
  ∃ b op, s.backend = some b ∧ s' = s.send request b op ∧
    ∀ key id, op = .refund key id → s'.Names s.calls.length ⟨some b, key, id⟩

theorem begun_onBackend (hop : ∀ key id, op ≠ .refund key id) :
    Begun s now request (s.onBackend now request op) := by
  unfold onBackend
  cases hb : s.backend with
  | none => exact .inr (.inl ⟨op, rfl, fun key id hr => absurd hr (hop key id)⟩)
  | some b => exact .inr (.inr ⟨b, op, hb, rfl, fun key id hr => absurd hr (hop key id)⟩)

/-- The take of the ids was answered by the store they name. -/
theorem source_of_ids {take : ℕ} {source : Source} {windows : WindowIds}
    (h : s.ids take = some (source, windows)) : ∃ c ∈ s.calls, c.2.source = source := by
  obtain ⟨c, hc, hans⟩ := Option.bind_eq_some_iff.mp h
  refine ⟨c, List.mem_of_getElem? hc, ?_⟩
  cases hp : c.2 with
  | answered source' answer =>
    rw [hp] at hans
    cases answer with
    | took d =>
      cases hans
      rfl
    | _ => cases hans
  | _ =>
    rw [hp] at hans
    cases hans

theorem begun_refund (h : Sound uuid now s) {take : ℕ} {key windowId : Text}
    (hwin : s.windowId take key = some windowId) :
    Begun s now (.refund take key) (s.refund now (.refund take key) key windowId) := by
  obtain ⟨source, windows, id, hids, hget, hsplit⟩ := windowId_eq hwin
  -- the new call names the window of its ticket
  have hnames : ∀ {s' : SharedWindowCounter} {progress : Progress},
      s'.calls = s.calls ++ [(.refund take key, progress)] →
      s'.Names s.calls.length ⟨source.map Prod.fst, key, id⟩ := by
    intro s' progress hcalls
    refine ⟨take, key, progress, source, windows, id, ?_, ?_, hget, rfl⟩
    · rw [hcalls, List.getElem?_append_right le_rfl, Nat.sub_self]
      rfl
    · exact (extends_concat hcalls).ids take _ hids
  rw [SharedWindowCounter.refund, hsplit]
  dsimp only
  cases source with
  | none =>
    rw [if_pos (show Source.name none = ['l'] from rfl)]
    refine .inr (.inl ⟨_, rfl, fun key' id' heq => ?_⟩)
    cases heq
    exact hnames rfl
  | some t =>
    obtain ⟨b, g⟩ := t
    rw [if_neg (show Source.name (some (b, g)) ≠ ['l'] by simp [Source.name])]
    cases hb : s.backend with
    | none => exact .inl rfl
    | some b' =>
      dsimp only
      by_cases hg : Source.name (some (b, g)) ≠ 's' :: Text.decimal s.backendGeneration
      · rw [if_pos hg]
        exact .inl rfl
      · rw [if_neg hg]
        -- the same generation, hence the same backend
        have hgen : g = s.backendGeneration :=
          Text.decimal_injective (List.cons.inj (not_not.mp hg)).2
        obtain ⟨c, hc, hsource⟩ := source_of_ids hids
        have hbackend := (h.generations c hc b g hsource).2 hgen
        cases hb.symm.trans hbackend
        refine .inr (.inr ⟨b, _, hb, rfl, fun key' id' heq => ?_⟩)
        cases heq
        exact hnames rfl

theorem begun (h : Sound uuid now s) (request : Request) :
    Begun s now request (s.begin now request) := by
  cases request with
  | take keys options => exact begun_onBackend fun _ _ h => by cases h
  | peek key => exact begun_onBackend fun _ _ h => by cases h
  | delete keys => exact begun_onBackend fun _ _ h => by cases h
  | markOnce key => exact begun_onBackend fun _ _ h => by cases h
  | prune => exact .inr (.inl ⟨.prune, rfl, fun _ _ h => by cases h⟩)
  | refund take key =>
    show Begun s now _ ((s.windowId take key).elim _ _)
    cases hwin : s.windowId take key with
    | none => exact .inl rfl
    | some windowId => exact begun_refund h hwin

theorem Sound.begin (h : Sound uuid now s) (request : Request) :
    Sound uuid now (s.begin now request) := by
  rcases begun h request with heq | ⟨op, heq, _⟩ | ⟨b, op, hb, heq, hnames⟩
  · rw [heq]
    exact h.skip
  · rw [heq]
    exact h.answerLocally
  · rw [heq] at hnames ⊢
    exact h.send hb hnames

/-- What a step that only moves a call along leaves alone. -/
structure Moves (uuid : ℕ → Text) (now : Time) (s s' : SharedWindowCounter) : Prop where
  sound : Sound uuid now s'
  ext : Extends s s'
  wire : s'.wire = s.wire
  length : s'.calls.length = s.calls.length
  backends : s'.backends = s.backends

theorem Sound.moves_self (h : Sound uuid now s) : Moves uuid now s s :=
  ⟨h, extends_of_calls_eq rfl, rfl, rfl, rfl⟩

theorem Sound.moves_setProgress (h : Sound uuid now s) {call : ℕ} {c : Request × Progress}
    (progress : Progress) (hc : s.calls[call]? = some c)
    (hnot : ∀ source answer, c.2 ≠ .answered source answer)
    (hsource : progress.source = none ∨ progress.source = c.2.source) :
    Moves uuid now s (s.setProgress call progress) :=
  ⟨h.setProgress hc hnot hsource, extends_setProgress hc hnot hsource, rfl, length_setProgress, rfl⟩

theorem Sound.replied (h : Sound uuid now s) {call : ℕ} {c : Request × Progress}
    (hc : s.calls[call]? = some c) : Moves uuid now s (s.replied call c.2) ∧
      (s.replied call c.2).localCounter = s.localCounter := by
  cases hp : c.2 with
  | ran backend generation op answer =>
    refine ⟨h.moves_setProgress _ hc (fun _ _ heq => ?_) (.inr ?_), rfl⟩
    · rw [hp] at heq
      cases heq
    · rw [hp]
      rfl
  | _ => exact ⟨h.moves_self, rfl⟩

/-- A call that fails is answered from memory, but for a refund. -/
theorem Sound.fallBack (h : Sound uuid now s) {call : ℕ} {c : Request × Progress}
    (hc : s.calls[call]? = some c) (hnot : ∀ source answer, c.2 ≠ .answered source answer) (op : Op) :
    Moves uuid now s (s.fallBack now call op) ∧
      ((s.fallBack now call op).localCounter = s.localCounter ∨
        (∀ key id, op ≠ .refund key id) ∧
          (s.fallBack now call op).localCounter = (s.localCounter.call now op).2) := by
  by_cases hop : ∃ key id, op = .refund key id
  · obtain ⟨key, id, rfl⟩ := hop
    exact ⟨h.moves_setProgress _ hc hnot (.inl rfl), .inl rfl⟩
  · have hop : ∀ key id, op ≠ .refund key id := fun key id heq => hop ⟨key, id, heq⟩
    have heq : s.fallBack now call op =
        { s.setProgress call (.answered none (s.localCounter.call now op).1) with
          localCounter := (s.localCounter.call now op).2 } := by
      cases op with
      | refund key id => exact absurd rfl (hop key id)
      | _ => rfl
    rw [heq]
    have hset := h.moves_setProgress (.answered none (s.localCounter.call now op).1) hc hnot
      (.inl rfl)
    refine ⟨⟨?_, ⟨hset.ext.calls, hset.ext.ids⟩, hset.wire, hset.length, hset.backends⟩,
      .inr ⟨hop, rfl⟩⟩
    exact ⟨h.localCounter.call op, hset.sound.backends, hset.sound.generations, hset.sound.called,
      hset.sound.distinct, hset.sound.refunds⟩

theorem Sound.failed (h : Sound uuid now s) {call : ℕ} {c : Request × Progress}
    (hc : s.calls[call]? = some c) : Moves uuid now s (s.failed now call c.2) ∧
      ((s.failed now call c.2).localCounter = s.localCounter ∨ ∃ op,
        (∀ key id, op ≠ .refund key id) ∧
          (s.failed now call c.2).localCounter = (s.localCounter.call now op).2) := by
  have hfall : ∀ op, (∀ source answer, c.2 ≠ .answered source answer) →
      Moves uuid now s (s.fallBack now call op) ∧
        ((s.fallBack now call op).localCounter = s.localCounter ∨ ∃ op',
          (∀ key id, op' ≠ .refund key id) ∧
            (s.fallBack now call op).localCounter = (s.localCounter.call now op').2) := by
    intro op hnot
    obtain ⟨hmoves, hlocal⟩ := h.fallBack hc hnot op
    exact ⟨hmoves, hlocal.imp_right fun hop => ⟨op, hop⟩⟩
  cases hp : c.2 with
  | sent backend generation op =>
    refine hfall op fun _ _ heq => ?_
    rw [hp] at heq
    cases heq
  | ran backend generation op answer =>
    refine hfall op fun _ _ heq => ?_
    rw [hp] at heq
    cases heq
  | _ => exact ⟨h.moves_self, .inl rfl⟩

end Steps

section Run

variable (hne : ∀ n, uuid n ≠ []) (hinj : Function.Injective uuid)

include hne hinj

/-- A command that is run leaves the wire and changes its backend. -/
theorem Sound.runCommand (h : Sound uuid now s) {i : ℕ} {c : Command} (hc : s.wire[i]? = some c) :
    Sound uuid now (s.runCommand uuid now i c) ∧ Extends s (s.runCommand uuid now i c) ∧
      (s.runCommand uuid now i c).wire = s.wire.eraseIdx i ∧
      (s.runCommand uuid now i c).calls.length = s.calls.length ∧
      (s.runCommand uuid now i c).localCounter = s.localCounter ∧
      (s.runCommand uuid now i c).backends =
        Function.update s.backends c.backend ((s.backends c.backend).call uuid now c.op).2 := by
  set s₁ : SharedWindowCounter := { s with
    backends := Function.update s.backends c.backend ((s.backends c.backend).call uuid now c.op).2
    wire := s.wire.eraseIdx i } with hs₁
  have hext : Extends s s₁ := extends_of_calls_eq rfl
  have hsound : Sound uuid now s₁ := by
    refine h.of_parts hext h.localCounter (fun b => ?_) rfl rfl
      (fun c' hc' b g hs => .inl ⟨c', hc', hs⟩) (List.eraseIdx_sublist _ _)
    rw [hs₁]
    dsimp only
    by_cases hb : b = c.backend
    · rw [hb, Function.update_self]
      exact (h.backends c.backend).call hne hinj c.op
    · rw [Function.update_of_ne hb]
      exact h.backends b
  have hrun : s.runCommand uuid now i c = s.calls[c.call]?.elim s₁ fun p =>
      s₁.ranCommand c ((s.backends c.backend).call uuid now c.op).1 p.2 := rfl
  rw [hrun]
  cases hp : s.calls[c.call]? with
  | none => exact ⟨hsound, hext, rfl, rfl, rfl, rfl⟩
  | some p =>
    rw [Option.elim_some]
    cases hq : p.2 with
    | sent backend generation op =>
      -- the call waits for the backend that ran its command
      have hbackend : p.2.source = some (c.backend, generation) := by
        obtain ⟨p', hp', hsource⟩ := h.called c (List.mem_of_getElem? hc)
        cases hp.symm.trans hp'
        rw [hq] at hsource ⊢
        rcases hsource with hsource | ⟨g, hsource⟩
        · cases hsource
        · cases hsource
          rfl
      have hmoves := hsound.moves_setProgress (.ran c.backend generation op
        ((s.backends c.backend).call uuid now c.op).1) hp (fun _ _ heq => by rw [hq] at heq; cases heq)
        (.inr hbackend.symm)
      exact ⟨hmoves.sound, hext.trans hmoves.ext, hmoves.wire, hmoves.length, rfl, hmoves.backends⟩
    | _ => exact ⟨hsound, hext, rfl, rfl, rfl, rfl⟩

/-- **Every step keeps the invariant.** -/
theorem Sound.step (h : Sound uuid e.time s) : Sound uuid e.time (s.step uuid e) := by
  unfold SharedWindowCounter.step
  cases e.act with
  | useSharedBackend next =>
    refine ⟨h.localCounter, h.backends, fun c hc b g hs => ?_, h.called, h.distinct,
      fun c hc key id hop => ?_⟩
    · have hle := (h.generations c hc b g hs).1
      exact ⟨hle.trans (Nat.le_succ _), fun heq => absurd heq (Nat.lt_succ_of_le hle).ne⟩
    · exact (h.refunds c hc key id hop).mono (extends_of_calls_eq rfl)
  | call request => exact h.begin request
  | run i =>
    dsimp only
    cases hc : s.wire[i]? with
    | none => exact h
    | some c => exact (h.runCommand hne hinj hc).1
  | reply call =>
    dsimp only
    cases hc : s.calls[call]? with
    | none => exact h
    | some c => exact (h.replied hc).1.sound
  | fail call =>
    dsimp only
    cases hc : s.calls[call]? with
    | none => exact h
    | some c => exact (h.failed hc).1.sound

omit hne hinj in
/-- Memory lowers a window of its own, for a refund with its id. -/
theorem lowered_local (h : Sound uuid now s) {op : Op} {k : Text} {store : Option ℕ}
    {w w' : MemoryWindow} (hw : s.view now store k = some w) (hw' : s'.view now store k = some w')
    (hlt : w'.count < w.count) (hlocal : s'.localCounter = (s.localCounter.call now op).2)
    (hbackends : s'.backends = s.backends) :
    store = none ∧ op = .refund k w.id ∧ w'.count = w.count - 1 ∧ 0 ≤ w'.count := by
  cases store with
  | none =>
    have hw' : s'.localCounter.view now k = some w' := hw'
    rw [hlocal] at hw'
    exact ⟨rfl, MemoryWindowCounter.lawful.lowered h.localCounter hw hw' hlt⟩
  | some b =>
    have hw' : (s'.backends b).view now k = some w' := hw'
    rw [hbackends] at hw'
    cases hw.symm.trans hw'
    exact absurd hlt (lt_irrefl _)

/-- A backend lowers a window of its own, for a refund with its id. -/
theorem lowered_backend (h : Sound uuid now s) {op : Op} {k : Text} {b : ℕ} {store : Option ℕ}
    {w w' : MemoryWindow} (hw : s.view now store k = some w) (hw' : s'.view now store k = some w')
    (hlt : w'.count < w.count) (hlocal : s'.localCounter = s.localCounter)
    (hbackends : s'.backends = Function.update s.backends b ((s.backends b).call uuid now op).2) :
    store = some b ∧ op = .refund k w.id ∧ w'.count = w.count - 1 ∧ 0 ≤ w'.count := by
  cases store with
  | none =>
    have hw' : s'.localCounter.view now k = some w' := hw'
    rw [hlocal] at hw'
    cases hw.symm.trans hw'
    exact absurd hlt (lt_irrefl _)
  | some b' =>
    have hw' : (s'.backends b').view now k = some w' := hw'
    rw [hbackends] at hw'
    by_cases hb : b' = b
    · subst hb
      rw [Function.update_self] at hw'
      exact ⟨rfl, (RedisStore.lawful hne hinj).lowered (h.backends b') hw hw' hlt⟩
    · rw [Function.update_of_ne hb] at hw'
      cases hw.symm.trans hw'
      exact absurd hlt (lt_irrefl _)

omit hne hinj in
/-- Without work on a store no window is lowered. -/
theorem not_lowered {k : Text} {store : Option ℕ} {w w' : MemoryWindow}
    (hw : s.view now store k = some w) (hw' : s'.view now store k = some w')
    (hlt : w'.count < w.count) (hlocal : s'.localCounter = s.localCounter)
    (hbackends : s'.backends = s.backends) : False := by
  have heq : s'.view now store = s.view now store := by
    cases store with
    | none => exact congrArg (·.view now) hlocal
    | some b => exact congrArg (fun f : ℕ → RedisStore => (f b).view now) hbackends
  rw [heq] at hw'
  cases hw.symm.trans hw'
  exact absurd hlt (lt_irrefl _)

/-- **What lowers a window.** A refund does, whose ticket names it, and by one. -/
theorem lowers_cases (h : Sound uuid e.time s) {m m' : ℤ} (hl : s.Lowers uuid e W m m') :
    m' = m - 1 ∧ 0 ≤ m' ∧ ∃ call, s.worker e = some call ∧ (s.step uuid e).Names call W := by
  obtain ⟨w, w', hw, hw', hid, _, rfl, rfl, hlt⟩ := hl
  obtain ⟨store, key, id⟩ := W
  dsimp only at hw hw' hid
  subst hid
  obtain ⟨now, act⟩ := e
  unfold SharedWindowCounter.step at hw' ⊢
  unfold worker
  cases act with
  | useSharedBackend next => exact (not_lowered hw hw' hlt rfl rfl).elim
  | call request =>
    dsimp only at hw' ⊢
    rcases begun h request with heq | ⟨op, heq, hnames⟩ | ⟨b, op, _, heq, _⟩
    · rw [heq] at hw'
      exact (not_lowered hw hw' hlt rfl rfl).elim
    · rw [heq] at hw' hnames ⊢
      obtain ⟨rfl, rfl, hone, hnonneg⟩ := lowered_local h hw hw' hlt rfl rfl
      exact ⟨hone, hnonneg, _, rfl, hnames _ _ rfl⟩
    · rw [heq] at hw'
      exact (not_lowered hw hw' hlt rfl rfl).elim
  | run i =>
    dsimp only at hw' ⊢
    cases hc : s.wire[i]? with
    | none =>
      rw [hc] at hw'
      exact (not_lowered hw hw' hlt rfl rfl).elim
    | some c =>
      rw [hc] at hw'
      obtain ⟨_, hext, _, _, hlocal, hbackends⟩ := h.runCommand hne hinj hc
      obtain ⟨rfl, hop, hone, hnonneg⟩ := lowered_backend hne hinj h hw hw' hlt hlocal hbackends
      exact ⟨hone, hnonneg, _, rfl, (h.refunds c (List.mem_of_getElem? hc) _ _ hop).mono hext⟩
  | reply call =>
    dsimp only at hw'
    cases hc : s.calls[call]? with
    | none =>
      rw [hc] at hw'
      exact (not_lowered hw hw' hlt rfl rfl).elim
    | some c =>
      rw [hc] at hw'
      obtain ⟨hmoves, hlocal⟩ := h.replied hc
      exact (not_lowered hw hw' hlt hlocal hmoves.backends).elim
  | fail call =>
    dsimp only at hw'
    cases hc : s.calls[call]? with
    | none =>
      rw [hc] at hw'
      exact (not_lowered hw hw' hlt rfl rfl).elim
    | some c =>
      rw [hc] at hw'
      obtain ⟨hmoves, hlocal | ⟨op, hop, hlocal⟩⟩ := h.failed hc
      · exact (not_lowered hw hw' hlt hlocal hmoves.backends).elim
      · exact absurd (lowered_local h hw hw' hlt hlocal hmoves.backends).2.1 (hop _ _)

/-! ## Once -/

omit hne hinj in
/-- The call has no command on its way, and never will. -/
def Spent (s : SharedWindowCounter) (call : ℕ) : Prop :=
  call < s.calls.length ∧ ∀ c ∈ s.wire, c.call ≠ call

omit hne hinj in
theorem Spent.worker_ne {call : ℕ} (h : s.Spent call) (e : Event) : s.worker e ≠ some call := by
  unfold worker
  cases e.act with
  | call request => exact fun heq => h.1.ne (Option.some.inj heq).symm
  | run i =>
    intro heq
    obtain ⟨c, hc, hcall⟩ := Option.map_eq_some_iff.mp heq
    exact h.2 c (List.mem_of_getElem? hc) hcall
  | _ => exact fun heq => by cases heq

/-- What a step adds to the wire is the command of a new call. -/
theorem Spent.step {call : ℕ} (h : s.Spent call) (hs : Sound uuid e.time s) :
    (s.step uuid e).Spent call := by
  have hsub : ∀ {s' : SharedWindowCounter}, s.calls.length ≤ s'.calls.length →
      s'.wire.Sublist s.wire → s'.Spent call := fun hlen hwire =>
    ⟨h.1.trans_le hlen, fun c hc => h.2 c (hwire.subset hc)⟩
  have hconcat : ∀ {s' : SharedWindowCounter} {c : Request × Progress},
      s'.calls = s.calls ++ [c] → s.calls.length ≤ s'.calls.length := by
    intro s' c hcalls
    rw [hcalls, List.length_append]
    exact Nat.le_add_right _ _
  unfold SharedWindowCounter.step
  cases e.act with
  | useSharedBackend next => exact h
  | call request =>
    dsimp only
    rcases begun hs request with heq | ⟨op, heq, _⟩ | ⟨b, op, _, heq, _⟩
    · rw [heq]
      exact hsub (hconcat rfl) (List.Sublist.refl _)
    · rw [heq]
      exact hsub (hconcat rfl) (List.Sublist.refl _)
    · rw [heq]
      refine ⟨h.1.trans_le (hconcat rfl), fun c hc => ?_⟩
      rcases List.mem_append.mp hc with hc | hc
      · exact h.2 c hc
      · rw [List.mem_singleton.mp hc]
        exact h.1.ne'
  | run i =>
    dsimp only
    cases hc : s.wire[i]? with
    | none => exact h
    | some c =>
      obtain ⟨_, _, hwire, hlen, _⟩ := hs.runCommand hne hinj hc
      exact hsub hlen.ge (hwire ▸ List.eraseIdx_sublist _ _)
  | reply call' =>
    dsimp only
    cases hc : s.calls[call']? with
    | none => exact h
    | some c =>
      have hmoves := (hs.replied hc).1
      exact hsub hmoves.length.ge (hmoves.wire ▸ List.Sublist.refl _)
  | fail call' =>
    dsimp only
    cases hc : s.calls[call']? with
    | none => exact h
    | some c =>
      have hmoves := (hs.failed hc).1
      exact hsub hmoves.length.ge (hmoves.wire ▸ List.Sublist.refl _)

/-- A call that has lowered a window is spent. -/
theorem spent_of_lowers (h : Sound uuid e.time s) {m m' : ℤ} (hl : s.Lowers uuid e W m m')
    {call : ℕ} (hworker : s.worker e = some call) : (s.step uuid e).Spent call := by
  obtain ⟨w, w', hw, hw', _, _, rfl, rfl, hlt⟩ := hl
  obtain ⟨now, act⟩ := e
  unfold SharedWindowCounter.step at hw' ⊢
  unfold worker at hworker
  cases act with
  | call request =>
    dsimp only at hw' hworker ⊢
    cases hworker
    rcases begun h request with heq | ⟨op, heq, _⟩ | ⟨b, op, _, heq, _⟩
    · rw [heq] at hw'
      exact (not_lowered hw hw' hlt rfl rfl).elim
    · rw [heq]
      refine ⟨?_, fun c hc => (h.call_lt hc).ne⟩
      show s.calls.length < (s.calls ++ [_]).length
      rw [List.length_append]
      exact Nat.lt_succ_self _
    · rw [heq] at hw'
      exact (not_lowered hw hw' hlt rfl rfl).elim
  | run i =>
    dsimp only at hworker ⊢
    obtain ⟨c, hc, rfl⟩ := Option.map_eq_some_iff.mp hworker
    rw [hc, Option.elim_some]
    obtain ⟨_, _, hwire, hlen, _⟩ := h.runCommand hne hinj hc
    refine ⟨(h.call_lt (List.mem_of_getElem? hc)).trans_le hlen.ge, fun c' hc' heq => ?_⟩
    -- the calls of the commands are distinct
    rw [hwire] at hc'
    obtain ⟨j, hj, hc'⟩ := List.mem_eraseIdx_iff_getElem?.mp hc'
    have hlt : j < (s.wire.map (·.call)).length := by
      rw [List.length_map]
      exact (List.getElem?_eq_some_iff.mp hc').1
    refine hj ((List.getElem?_inj hlt h.distinct).mp ?_)
    rw [List.getElem?_map, List.getElem?_map, hc, hc', Option.map_some, Option.map_some, heq]
  | _ => cases hworker

end Run

/-! ## Every run -/

/-- A process without a backend, and backends without a key. -/
def start : SharedWindowCounter :=
  { localCounter := ⟨Table.empty, 0⟩, backends := fun _ => ⟨Table.empty, 0⟩, backend := none,
    backendGeneration := 0, wire := [], calls := [] }

/-- The process after the events. -/
def afterEvents (uuid : ℕ → Text) (events : List Event) : SharedWindowCounter :=
  final (fun s e => ((), s.step uuid e)) start events

/-- What refunds keep to in a run. -/
structure RefundsKept (uuid : ℕ → Text) (events : List Event) : Prop where
  /-- Only a refund lowers a window, by one, never below zero, and its ticket names the window. -/
  byOne : ∀ pre e post W m m', events = pre ++ e :: post →
    (afterEvents uuid pre).Lowers uuid e W m m' → m' = m - 1 ∧ 0 ≤ m' ∧
      ∃ call, (afterEvents uuid pre).worker e = some call ∧
        (afterEvents uuid (pre ++ [e])).Names call W
  /-- A refund lowers a window once. -/
  once : ∀ pre e mid e' post W W' m m' k k' call, events = pre ++ e :: (mid ++ e' :: post) →
    (afterEvents uuid pre).Lowers uuid e W m m' →
    (afterEvents uuid pre).worker e = some call →
    (afterEvents uuid (pre ++ e :: mid)).Lowers uuid e' W' k k' →
      (afterEvents uuid (pre ++ e :: mid)).worker e' ≠ some call

section Runs

variable (hne : ∀ n, uuid n ≠ []) (hinj : Function.Injective uuid)

theorem sound_start : Sound uuid now start :=
  ⟨MemoryWindowCounter.inv_empty, fun _ => RedisStore.inv_empty, fun _ hc => absurd hc List.not_mem_nil,
    fun _ hc => absurd hc List.not_mem_nil, List.nodup_nil, fun _ hc => absurd hc List.not_mem_nil⟩

include hne hinj

theorem sound_afterEvents {events : List Event} (ht : Ticks Event.time 0 events) :
    Sound uuid (lastTime Event.time 0 events) (afterEvents uuid events) :=
  invariant (Sound uuid) (fun _ _ _ h hle _ => (h.mono hle).step hne hinj) sound_start ht
    fun _ _ => trivial

theorem spent_final {call : ℕ} {events : List Event} (h : Sound uuid now s) (hs : s.Spent call)
    (ht : Ticks Event.time now events) :
    (final (fun s e => ((), s.step uuid e)) s events).Spent call := by
  induction events generalizing now s with
  | nil => exact hs
  | cons e events ih =>
    have hsound := h.mono ht.1
    exact ih (hsound.step hne hinj) (hs.step hne hinj hsound) ht.2

theorem refundsKept {events : List Event} (ht : Ticks Event.time 0 events) :
    RefundsKept uuid events := by
  have hsound : ∀ {pre e post}, events = pre ++ e :: post →
      Sound uuid e.time (afterEvents uuid pre) ∧ Ticks Event.time e.time post := by
    intro pre e post heq
    rw [heq] at ht
    obtain ⟨hpre, hle, hpost⟩ := ticks_append.mp ht
    exact ⟨(sound_afterEvents hne hinj hpre).mono hle, hpost⟩
  have hconcat : ∀ pre e, afterEvents uuid (pre ++ [e]) = (afterEvents uuid pre).step uuid e :=
    fun pre e => final_append _ _ _
  constructor
  · intro pre e post W m m' heq hl
    rw [hconcat]
    exact lowers_cases hne hinj (hsound heq).1 hl
  · intro pre e mid e' post W W' m m' k k' call heq hl hworker _
    obtain ⟨hs, hticks⟩ := hsound heq
    have hspent := spent_of_lowers hne hinj hs hl hworker
    have hafter : afterEvents uuid (pre ++ e :: mid) =
        final (fun s e => ((), s.step uuid e)) ((afterEvents uuid pre).step uuid e) mid := by
      rw [List.append_cons, afterEvents, final_append, ← hconcat]
      rfl
    rw [hafter]
    exact (spent_final hne hinj (hs.step hne hinj) hspent (ticks_append.mp hticks).1).worker_ne e'

end Runs

end SharedWindowCounter

/-! ## The counters -/

/-- What the fixed-window counters keep to. -/
structure CountersKept (uuid : ℕ → Text) (hne : ∀ n, uuid n ≠ [])
    (hinj : Function.Injective uuid) (calls : List Call) (events : List Event) : Prop where
  agree : history (Client.step MemoryWindowCounter.call) ⟨⟨Table.empty, 0⟩, []⟩ calls =
    history (Client.step (RedisStore.call uuid)) ⟨⟨Table.empty, 0⟩, []⟩ calls
  memory : Kept MemoryWindowCounter.lawful ⟨Table.empty, 0⟩ calls
  redis : Kept (RedisStore.lawful hne hinj) ⟨Table.empty, 0⟩ calls
  shared : SharedWindowCounter.RefundsKept uuid events

/-- **Fixed-window counters.** The memory counter and the Redis scripts answer alike, each keeps to
its limits and gives back what its tickets name, and so do refunds through the shared counter. -/
theorem countersKept {uuid : ℕ → Text} (hne : ∀ n, uuid n ≠ []) (hinj : Function.Injective uuid)
    {calls : List Call} {events : List Event} (hcalls : Ticks Call.time 0 calls)
    (hevents : Ticks Event.time 0 events) : CountersKept uuid hne hinj calls events := by
  have hmemory : MemoryWindowCounter.Inv 0 ⟨Table.empty, 0⟩ := MemoryWindowCounter.inv_empty
  have hredis : RedisStore.Inv uuid 0 ⟨Table.empty, 0⟩ := RedisStore.inv_empty
  refine ⟨?_, kept hmemory (fun _ => rfl) hcalls, kept hredis (fun _ => rfl) hcalls,
    SharedWindowCounter.refundsKept hne hinj hevents⟩
  have hagree := history_eq (fun _ : Call => true)
    (Together MemoryWindowCounter.lawful (RedisStore.lawful hne hinj))
    (fun _ _ _ _ h hle _ => ⟨fun _ => (h.step hle).1, (h.step hle).2⟩)
    (⟨hmemory, hredis, fun _ => rfl, List.Forall₂.nil⟩ :
      Together MemoryWindowCounter.lawful (RedisStore.lawful hne hinj) 0 ⟨⟨Table.empty, 0⟩, []⟩
        ⟨⟨Table.empty, 0⟩, []⟩) hcalls (fun _ _ => trivial)
  rw [List.filter_eq_self.mpr (fun _ _ => rfl), List.filter_eq_self.mpr (fun _ _ => rfl)] at hagree
  exact hagree

/-- A take of two keys and its refund, and the same through a backend that fails in between. -/
theorem countersKept_two_keys :
    let keys : DistinctKeys := ⟨[['a'], ['b']], by decide⟩
    let options : WindowOptions := ⟨3, 1000, 1, 0, by decide, by decide, by decide⟩
    ∃ hne hinj, CountersKept (fun n => 'u' :: Text.decimal n) hne hinj
      [⟨0, .take keys options⟩, ⟨5, .refund 0 ['a']⟩]
      [⟨0, .useSharedBackend (some 0)⟩, ⟨1, .call (.take keys options)⟩, ⟨2, .run 0⟩, ⟨3, .fail 0⟩,
        ⟨4, .call (.refund 0 ['a'])⟩] :=
  ⟨fun _ => List.cons_ne_nil _ _, fun _ _ h => Text.decimal_injective (List.cons.inj h).2,
    countersKept _ _ (by decide) (by decide)⟩

end BunMail.Utils.Windows
