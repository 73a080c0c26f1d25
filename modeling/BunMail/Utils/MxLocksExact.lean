import BunMail.Utils.MxLocks

/-!
# Runs of the MX semaphores

What holds of one key holds of all of them: the calls of a key share the lock object that the table has
for it, and a step changes the calls of one key only.
-/

namespace BunMail.Utils.MxLocks

/-! ## All keys -/

/-- The lock of a key. -/
def entry (key : Text) (s : State) : Option MxLock := (s.locks key).map s.heap

/-- The calls of a key hold the lock object the table has for it, no two keys share one, and a key's
slots went to its first callers. -/
structure Inv (max : ℕ) (s : State) : Prop where
  ids : (s.calls.map Call.id).Nodup
  named : ∀ c ∈ s.calls, s.called[c.id]? = some c.key
  granted_lt : ∀ id ∈ s.granted, id < s.called.length
  fresh : ∀ key ref, s.locks key = some ref → ref < s.nextLock
  apart : ∀ key key' ref, s.locks key = some ref → s.locks key' = some ref → key = key'
  held : ∀ c ∈ s.calls, s.locks c.key = some c.lock
  keys : ∀ key, KeyInv max (entry key s) (ofKey key s.calls)
  order : ∀ key, calledOf key s = grantedOf key s ++ waiters (ofKey key s.calls)

section States

variable {max : ℕ} {s : State} {key : Text} {ref : ℕ}

theorem inv_idle : Inv max idle where
  ids := List.nodup_nil
  named _ h := absurd h List.not_mem_nil
  granted_lt _ h := absurd h List.not_mem_nil
  fresh _ _ h := by cases h
  apart _ _ _ h := by cases h
  held _ h := absurd h List.not_mem_nil
  keys _ := ⟨iff_of_true rfl rfl, fun _ h => by cases h⟩
  order _ := rfl

theorem mem_ofKey {calls : List Call} {c : Call} : c ∈ ofKey key calls ↔ c ∈ calls ∧ c.key = key := by
  unfold ofKey
  rw [List.mem_filter, decide_eq_true_iff]

theorem filter_one {α : Type} (p : α → Prop) [DecidablePred p] (a : α) :
    [a].filter (fun x => p x) = if p a then [a] else [] := by
  by_cases h : p a <;> simp [h]

theorem ofKey_append (calls : List Call) (c : Call) :
    ofKey key (calls ++ [c]) = ofKey key calls ++ if c.key = key then [c] else [] := by
  unfold ofKey
  rw [List.filter_append, filter_one]

theorem ofKey_map {calls : List Call} {f : Call → Call} (hf : ∀ c, (f c).key = c.key) :
    ofKey key (calls.map f) = (ofKey key calls).map f := by
  unfold ofKey
  rw [List.filter_map]
  refine congrArg _ (List.filter_congr fun c _ => ?_)
  rw [Function.comp_apply, hf]

/-- What a call adds to the calls of a key. -/
theorem calledOf_append (calls : List Call) (granted : List ℕ) (heap : ℕ → MxLock) (k : Text) :
    calledOf k { s with heap, calls, granted, called := s.called ++ [key] } =
      calledOf k s ++ if key = k then [s.called.length] else [] := by
  unfold calledOf
  dsimp only
  rw [List.length_append, List.length_singleton, List.range_succ, List.filter_append, filter_one,
    List.getElem?_concat_length]
  refine congrArg₂ _ (List.filter_congr fun id hid => ?_) (if_congr Option.some_inj rfl rfl)
  rw [List.getElem?_append_left (List.mem_range.mp hid)]

/-- The key of a call that was made does not change. -/
theorem getElem?_called {id : ℕ} (h : id < s.called.length) : (s.called ++ [key])[id]? = s.called[id]? :=
  List.getElem?_append_left h

/-- A key has its lock open for a call. -/
structure Opened (max : ℕ) (key : Text) (ref : ℕ) (s : State) : Prop where
  ids : (s.calls.map Call.id).Nodup
  named : ∀ c ∈ s.calls, s.called[c.id]? = some c.key
  granted_lt : ∀ id ∈ s.granted, id < s.called.length
  fresh : ∀ key ref, s.locks key = some ref → ref < s.nextLock
  apart : ∀ key key' ref, s.locks key = some ref → s.locks key' = some ref → key = key'
  held : ∀ c ∈ s.calls, s.locks c.key = some c.lock
  open_ : s.locks key = some ref
  counts : Counts max (s.heap ref) (ofKey key s.calls)
  others : ∀ k, k ≠ key → KeyInv max (entry k s) (ofKey k s.calls)
  order : ∀ key, calledOf key s = grantedOf key s ++ waiters (ofKey key s.calls)

theorem Inv.openLock (h : Inv max s) (key : Text) :
    Opened max key (openLock key s).1 (openLock key s).2 := by
  have hkey := (h.keys key).getD
  unfold MxLocks.openLock
  unfold entry at hkey
  cases hlock : s.locks key with
  | some ref =>
    rw [hlock] at hkey
    exact ⟨h.ids, h.named, h.granted_lt, h.fresh, h.apart, h.held, hlock, hkey,
      fun k _ => h.keys k, h.order⟩
  | none =>
    rw [hlock] at hkey
    have hne : ∀ k ref, s.locks k = some ref → ref ≠ s.nextLock := fun k ref hk =>
      (h.fresh k ref hk).ne
    have hother : ∀ k, k ≠ key → Function.update s.locks key (some s.nextLock) k = s.locks k :=
      fun k hk => Function.update_of_ne hk _ _
    refine ⟨h.ids, h.named, h.granted_lt, ?_, ?_, ?_, Function.update_self _ _ _, ?_, ?_, h.order⟩
    · intro k ref hk
      show ref < s.nextLock + 1
      by_cases hkk : k = key
      · subst hkk
        have hself : Function.update s.locks k (some s.nextLock) k = some ref := hk
        rw [Function.update_self] at hself
        exact Nat.lt_succ_of_le (Option.some.inj hself).ge
      · exact Nat.lt_succ_of_lt (h.fresh k ref ((hother k hkk).symm.trans hk))
    · intro k k' ref hk hk'
      by_cases hkk : k = key <;> by_cases hkk' : k' = key
      · exact hkk.trans hkk'.symm
      · subst hkk
        have hself : Function.update s.locks k (some s.nextLock) k = some ref := hk
        rw [Function.update_self] at hself
        exact absurd (Option.some.inj hself).symm (hne k' ref ((hother k' hkk').symm.trans hk'))
      · subst hkk'
        have hself : Function.update s.locks k' (some s.nextLock) k' = some ref := hk'
        rw [Function.update_self] at hself
        exact absurd (Option.some.inj hself).symm (hne k ref ((hother k hkk).symm.trans hk))
      · exact h.apart k k' ref ((hother k hkk).symm.trans hk) ((hother k' hkk').symm.trans hk')
    · intro c hc
      have hheld := h.held c hc
      refine (hother c.key ?_).trans hheld
      rintro heq
      rw [heq, hlock] at hheld
      cases hheld
    · show Counts max (Function.update s.heap s.nextLock ⟨0, []⟩ s.nextLock) _
      rw [Function.update_self]
      exact hkey
    · intro k hk
      have hentry : entry k { s with
          locks := Function.update s.locks key (some s.nextLock)
          heap := Function.update s.heap s.nextLock ⟨0, []⟩
          nextLock := s.nextLock + 1 } = entry k s := by
        unfold entry
        dsimp only
        rw [hother k hk]
        refine Option.map_congr fun ref href => ?_
        exact Function.update_of_ne (hne k ref href) _ _
      rw [hentry]
      exact h.keys k

/-- A call that came is among the calls of its key. -/
theorem Opened.add (h : Opened max key ref s) {lock : MxLock} {phase : Phase} {new : List ℕ}
    (hcounts : Counts max lock (ofKey key s.calls ++ [⟨s.called.length, key, ref, phase⟩]))
    (hnew : ∀ id ∈ new, id = s.called.length)
    (horder : waiters (ofKey key s.calls) ++ [s.called.length] =
      new ++ (waiters (ofKey key s.calls) ++ waiters [⟨s.called.length, key, ref, phase⟩])) :
    Inv max { s with
      heap := Function.update s.heap ref lock
      calls := s.calls ++ [⟨s.called.length, key, ref, phase⟩]
      called := s.called ++ [key]
      granted := s.granted ++ new } := by
  have hlt : ∀ c ∈ s.calls, c.id < s.called.length := fun c hc =>
    (List.getElem?_eq_some_iff.mp (h.named c hc)).1
  refine ⟨?_, ?_, ?_, h.fresh, h.apart, ?_, ?_, ?_⟩
  · show ((s.calls ++ [_]).map Call.id).Nodup
    rw [List.map_append, List.map_singleton]
    refine List.nodup_append.mpr ⟨h.ids, List.nodup_singleton _, ?_⟩
    rintro id hid id' hid' rfl
    obtain ⟨c, hc, hcid⟩ := List.mem_map.mp hid
    have hcl := hlt c hc
    rw [hcid, List.mem_singleton.mp hid'] at hcl
    exact lt_irrefl _ hcl
  · intro c hc
    rcases List.mem_append.mp hc with hc | hc
    · exact (getElem?_called (hlt c hc)).trans (h.named c hc)
    · obtain rfl := List.mem_singleton.mp hc
      exact List.getElem?_concat_length
  · intro id hid
    show id < (s.called ++ [key]).length
    rw [List.length_append, List.length_singleton]
    rcases List.mem_append.mp hid with hid | hid
    · exact Nat.lt_succ_of_lt (h.granted_lt id hid)
    · exact Nat.lt_succ_of_le (hnew id hid).le
  · intro c hc
    rcases List.mem_append.mp hc with hc | hc
    · exact h.held c hc
    · obtain rfl := List.mem_singleton.mp hc
      exact h.open_
  · intro k
    show KeyInv max ((s.locks k).map (Function.update s.heap ref lock)) (ofKey k (s.calls ++ [_]))
    rw [ofKey_append]
    by_cases hk : key = k
    · subst hk
      rw [if_pos rfl, h.open_, Option.map_some, Function.update_self]
      refine ⟨iff_of_false (by rintro ⟨⟩) (List.append_ne_nil_of_right_ne_nil _ (by simp)), ?_⟩
      rintro l ⟨⟩
      exact hcounts
    · rw [if_neg hk, List.append_nil]
      have hentry : (s.locks k).map (Function.update s.heap ref lock) = entry k s := by
        unfold entry
        refine Option.map_congr fun r hr => Function.update_of_ne ?_ _ _
        rintro rfl
        exact hk (h.apart key k _ h.open_ hr)
      rw [hentry]
      exact h.others k (Ne.symm hk)
  · intro k
    have hgranted : ∀ ids : List ℕ, (∀ id ∈ ids, id < s.called.length) →
        (ids.filter fun id => (s.called ++ [key])[id]? = some k) =
          ids.filter fun id => s.called[id]? = some k := fun ids hids =>
      List.filter_congr fun id hid => by rw [getElem?_called (hids id hid)]
    rw [calledOf_append]
    show _ = (s.granted ++ new).filter (fun id => (s.called ++ [key])[id]? = some k) ++
      waiters (ofKey k (s.calls ++ [_]))
    rw [List.filter_append, hgranted _ h.granted_lt, ofKey_append]
    have hold := h.order k
    unfold grantedOf at hold
    rw [hold]
    by_cases hk : key = k
    · subst hk
      have hall : new.filter (fun id => (s.called ++ [key])[id]? = some key) = new := by
        refine List.filter_eq_self.mpr fun id hid => decide_eq_true ?_
        rw [hnew id hid]
        exact List.getElem?_concat_length
      rw [if_pos rfl, if_pos rfl, hall, waiters_append, List.append_assoc, horder, List.append_assoc]
    · have hnone : new.filter (fun id => (s.called ++ [key])[id]? = some k) = [] := by
        refine List.filter_eq_nil_iff.mpr fun id hid => ?_
        rw [hnew id hid, List.getElem?_concat_length, decide_eq_true_iff, Option.some_inj]
        exact hk
      rw [if_neg hk, if_neg hk, hnone, List.append_nil, List.append_nil, List.append_nil]

theorem Inv.withMxLock (h : Inv max s) (key : Text) : Inv max (withMxLock max key s) := by
  have hopen := h.openLock key
  unfold MxLocks.withMxLock takeSlot
  generalize (MxLocks.openLock key s).1 = ref at hopen
  generalize (MxLocks.openLock key s).2 = s₁ at hopen
  dsimp only
  by_cases hfree : (s₁.heap ref).active < max
  · rw [if_pos hfree]
    have hempty : waiters (ofKey key s₁.calls) = [] := by
      rw [← hopen.counts.queue]
      by_contra hq
      exact absurd (hopen.counts.full hq) hfree.ne
    refine hopen.add (hopen.counts.take hfree _ _ _) (fun id hid => List.mem_singleton.mp hid) ?_
    rw [hempty]
    rfl
  · rw [if_neg hfree]
    have hadd := @Opened.add _ _ _ _ hopen _ _ [] (hopen.counts.wait hfree s₁.called.length key ref)
      (fun id hid => absurd hid List.not_mem_nil) rfl
    rwa [List.append_nil] at hadd

theorem Inv.counts (h : Inv max s) {c : Call} (hc : c ∈ s.calls) :
    Counts max (s.heap c.lock) (ofKey c.key s.calls) := by
  refine (h.keys c.key).counts _ ?_
  unfold entry
  rw [h.held c hc]
  rfl

theorem nodup_ofKey {calls : List Call} (h : (calls.map Call.id).Nodup) :
    ((ofKey key calls).map Call.id).Nodup := h.sublist (List.filter_sublist.map _)

/-- Calls go on or leave, and the lock of one key changes with them. -/
theorem Inv.settle (h : Inv max s) {c : Call} (hc : c ∈ s.calls) (lock : MxLock) (calls : List Call)
    (new : List ℕ) (hids : (calls.map Call.id).Nodup)
    (hcalls : ∀ x ∈ calls, ∃ y ∈ s.calls, y.id = x.id ∧ y.key = x.key ∧ y.lock = x.lock)
    (hothers : ∀ key, key ≠ c.key → ofKey key calls = ofKey key s.calls)
    (hcounts : Counts max lock (ofKey c.key calls))
    (hnew : ∀ id ∈ new, s.called[id]? = some c.key)
    (horder : waiters (ofKey c.key s.calls) = new ++ waiters (ofKey c.key calls)) :
    Inv max { s with
      locks := if lock.active = 0 ∧ lock.queue = [] then Function.update s.locks c.key none
        else s.locks
      heap := Function.update s.heap c.lock lock
      calls := calls
      granted := s.granted ++ new } := by
  have hlocks : ∀ key ref, (if lock.active = 0 ∧ lock.queue = [] then
      Function.update s.locks c.key none else s.locks) key = some ref → s.locks key = some ref := by
    intro key ref href
    split_ifs at href with hdrained
    · by_cases hk : key = c.key
      · rw [hk, Function.update_self] at href
        cases href
      · rwa [Function.update_of_ne hk] at href
    · exact href
  have hother : ∀ key, key ≠ c.key → (if lock.active = 0 ∧ lock.queue = [] then
      Function.update s.locks c.key none else s.locks) key = s.locks key := by
    intro key hk
    split_ifs with hdrained
    · exact Function.update_of_ne hk _ _
    · rfl
  have hentry : (if lock.active = 0 ∧ lock.queue = [] then
      Function.update s.locks c.key none else s.locks) c.key =
        if lock.active = 0 ∧ lock.queue = [] then none else some c.lock := by
    split_ifs with hdrained
    · exact Function.update_self _ _ _
    · exact h.held c hc
  refine ⟨hids, ?_, ?_, fun key ref href => h.fresh key ref (hlocks key ref href),
    fun key key' ref href href' => h.apart key key' ref (hlocks key ref href) (hlocks key' ref href'),
    ?_, ?_, ?_⟩
  · intro x hx
    obtain ⟨y, hy, hid, hkey, _⟩ := hcalls x hx
    have hnamed := h.named y hy
    rwa [hid, hkey] at hnamed
  · intro id hid
    rcases List.mem_append.mp hid with hid | hid
    · exact h.granted_lt id hid
    · exact (List.getElem?_eq_some_iff.mp (hnew id hid)).1
  · intro x hx
    obtain ⟨y, hy, _, hkey, hlock⟩ := hcalls x hx
    have hheld := h.held y hy
    rw [hkey, hlock] at hheld
    by_cases hk : x.key = c.key
    · have hsame : c.lock = x.lock := by
        rw [hk, h.held c hc] at hheld
        exact Option.some.inj hheld
      refine (congrArg _ hk).trans (hentry.trans ?_)
      rw [if_neg, hsame]
      rintro hdrained
      -- a drained lock counts no calls, so `x` is none of them
      have hnone : ofKey c.key calls = [] := by
        have hkeyInv := hcounts.keyInv
        rw [if_pos hdrained] at hkeyInv
        exact hkeyInv.used.mp rfl
      have hmem : x ∈ ofKey c.key calls := mem_ofKey.mpr ⟨hx, hk⟩
      rw [hnone] at hmem
      exact List.not_mem_nil hmem
    · exact (hother x.key hk).trans hheld
  · intro key
    show KeyInv max (Option.map (Function.update s.heap c.lock lock) _) (ofKey key calls)
    by_cases hk : key = c.key
    · subst hk
      have hkeyInv := hcounts.keyInv
      have heq : Option.map (Function.update s.heap c.lock lock)
          ((if lock.active = 0 ∧ lock.queue = [] then Function.update s.locks c.key none
            else s.locks) c.key) =
          if lock.active = 0 ∧ lock.queue = [] then none else some lock := by
        rw [hentry]
        split_ifs with hdrained
        · rfl
        · rw [Option.map_some, Function.update_self]
      exact heq ▸ hkeyInv
    · have heq : Option.map (Function.update s.heap c.lock lock)
          ((if lock.active = 0 ∧ lock.queue = [] then Function.update s.locks c.key none
            else s.locks) key) = entry key s := by
        rw [hother key hk]
        unfold entry
        refine Option.map_congr fun r hr => Function.update_of_ne ?_ _ _
        rintro rfl
        exact hk (h.apart key c.key _ hr (h.held c hc))
      rw [hothers key hk]
      exact heq ▸ h.keys key
  · intro key
    show calledOf key s = (s.granted ++ new).filter _ ++ waiters (ofKey key calls)
    have hold := h.order key
    unfold grantedOf at hold
    rw [List.filter_append, hold, List.append_assoc]
    refine congrArg _ ?_
    by_cases hk : key = c.key
    · subst hk
      have hall : new.filter (fun id => s.called[id]? = some c.key) = new :=
        List.filter_eq_self.mpr fun id hid => decide_eq_true (hnew id hid)
      rw [hall]
      exact horder
    · have hnone : new.filter (fun id => s.called[id]? = some key) = [] := by
        refine List.filter_eq_nil_iff.mpr fun id hid => ?_
        rw [hnew id hid, decide_eq_true_iff, Option.some_inj]
        exact Ne.symm hk
      rw [hnone, hothers key hk, List.nil_append]

theorem Inv.id_ne (h : Inv max s) {id : ℕ} (hid : s.called[id]? = some key) {k : Text} (hk : k ≠ key)
    {x : Call} (hx : x ∈ ofKey k s.calls) : x.id ≠ id := by
  rintro rfl
  obtain ⟨hmem, hkey⟩ := mem_ofKey.mp hx
  rw [h.named x hmem, hkey] at hid
  exact hk (Option.some.inj hid)

/-- Calls of other keys do not go on. -/
theorem Inv.map_goOn (h : Inv max s) {id : ℕ} {phase : Phase} (hid : s.called[id]? = some key)
    {k : Text} (hk : k ≠ key) : ofKey k (s.calls.map (Call.goOn id phase)) = ofKey k s.calls := by
  rw [ofKey_map fun _ => key_goOn]
  refine (List.map_congr_left fun x hx => ?_).trans (List.map_id _)
  exact if_neg (h.id_ne hid hk hx)

theorem ofKey_filter {calls : List Call} (p : Call → Bool) :
    ofKey key (calls.filter p) = (ofKey key calls).filter p := by
  unfold ofKey
  rw [List.filter_filter, List.filter_filter]
  exact List.filter_congr fun c _ => Bool.and_comm _ _

/-- Calls of other keys do not leave. -/
theorem Inv.filter_leave (h : Inv max s) {id : ℕ} (hid : s.called[id]? = some key) {k : Text}
    (hk : k ≠ key) {calls : List Call} (hcalls : ofKey k calls = ofKey k s.calls) :
    ofKey k (calls.filter fun x => x.id ≠ id) = ofKey k s.calls := by
  rw [ofKey_filter, hcalls]
  exact List.filter_eq_self.mpr fun x hx => decide_eq_true (h.id_ne hid hk hx)

theorem nodup_goOn {id : ℕ} {phase : Phase} {calls : List Call} (h : (calls.map Call.id).Nodup) :
    ((calls.map (Call.goOn id phase)).map Call.id).Nodup := by
  rw [List.map_map]
  have hid : Call.id ∘ Call.goOn id phase = Call.id := funext fun c => id_goOn
  rwa [hid]

/-- Who is in line for a lock called for its key. -/
theorem Inv.called_next (h : Inv max s) {c : Call} (hc : c ∈ s.calls) {next : ℕ} {rest : List ℕ}
    (hqueue : (s.heap c.lock).queue = next :: rest) : s.called[next]? = some c.key := by
  have hin : next ∈ waiters (ofKey c.key s.calls) := by
    rw [← (h.counts hc).queue, hqueue]
    exact List.mem_cons_self
  obtain ⟨x, hx, hxid⟩ := List.mem_map.mp hin
  obtain ⟨hx, hkey⟩ := mem_ofKey.mp (List.mem_filter.mp hx).1
  have hxnamed := h.named x hx
  rwa [hxid, hkey] at hxnamed

theorem tidy_of_heap {c : Call} {lock : MxLock} (h : s.heap c.lock = lock) : tidy c s = { s with
    locks := if lock.active = 0 ∧ lock.queue = [] then Function.update s.locks c.key none
      else s.locks } := by
  subst h
  rfl

theorem passOn_nil {c : Call} (h : (s.heap c.lock).queue = []) : passOn c s = { s with
    heap := Function.update s.heap c.lock
      { s.heap c.lock with active := (s.heap c.lock).active - 1 } } := by
  unfold passOn
  rw [h]

theorem passOn_cons {c : Call} {next : ℕ} {rest : List ℕ} (h : (s.heap c.lock).queue = next :: rest) :
    passOn c s = { s with
      heap := Function.update s.heap c.lock { s.heap c.lock with queue := rest }
      calls := s.calls.map (Call.goOn next .handed)
      granted := s.granted ++ [next] } := by
  unfold passOn
  rw [h]

theorem Inv.release (h : Inv max s) {c : Call} (hc : c ∈ s.calls) (hphase : c.phase ≠ .waiting) :
    Inv max (release c s) := by
  have hcounts := h.counts hc
  have hmem : c ∈ ofKey c.key s.calls := mem_ofKey.mpr ⟨hc, rfl⟩
  have hnamed := h.named c hc
  cases hqueue : (s.heap c.lock).queue with
  | nil =>
    have hstate : MxLocks.release c s = { s with
        locks := if (s.heap c.lock).active - 1 = 0 ∧ (s.heap c.lock).queue = [] then
          Function.update s.locks c.key none else s.locks
        heap := Function.update s.heap c.lock
          { s.heap c.lock with active := (s.heap c.lock).active - 1 }
        calls := s.calls.filter fun x => x.id ≠ c.id
        granted := s.granted ++ [] } := by
      unfold MxLocks.release
      rw [passOn_nil hqueue, tidy_of_heap (Function.update_self _ _ _), List.append_nil]
      rfl
    rw [hstate]
    refine h.settle hc { s.heap c.lock with active := (s.heap c.lock).active - 1 } _ []
      (h.ids.sublist (List.filter_sublist.map _)) ?_ ?_ ?_ ?_ ?_
    · exact fun x hx => ⟨x, (mem_leave.mp hx).1, rfl, rfl, rfl⟩
    · exact fun key hk => h.filter_leave hnamed hk rfl
    · rw [ofKey_filter]
      exact hcounts.free (nodup_ofKey h.ids) hmem hphase hqueue
    · exact fun id hid => absurd hid List.not_mem_nil
    · rw [ofKey_filter, waiters_leave (nodup_ofKey h.ids) hmem hphase]
      rfl
  | cons next rest =>
    have hstate : MxLocks.release c s = { s with
        locks := if (s.heap c.lock).active = 0 ∧ rest = [] then
          Function.update s.locks c.key none else s.locks
        heap := Function.update s.heap c.lock { s.heap c.lock with queue := rest }
        calls := (s.calls.map (Call.goOn next .handed)).filter fun x => x.id ≠ c.id
        granted := s.granted ++ [next] } := by
      unfold MxLocks.release
      rw [passOn_cons hqueue, tidy_of_heap (Function.update_self _ _ _)]
      rfl
    have hwaiters : waiters (ofKey c.key s.calls) = next :: rest := by rw [← hcounts.queue, hqueue]
    have hnext := h.called_next hc hqueue
    have hover := hcounts.handOver (nodup_ofKey h.ids) hmem hphase hqueue
    rw [hstate]
    refine h.settle hc { s.heap c.lock with queue := rest } _ [next]
      ((nodup_goOn h.ids).sublist (List.filter_sublist.map _)) ?_ ?_ ?_ ?_ ?_
    · intro x hx
      obtain ⟨y, hy, rfl⟩ := List.mem_map.mp (mem_leave.mp hx).1
      exact ⟨y, hy, id_goOn.symm, key_goOn.symm, lock_goOn.symm⟩
    · exact fun key hk => h.filter_leave hnamed hk (h.map_goOn hnext hk)
    · rw [ofKey_filter, ofKey_map fun _ => key_goOn]
      exact hover
    · exact fun id hid => List.mem_singleton.mp hid ▸ hnext
    · rw [ofKey_filter, ofKey_map fun _ => key_goOn, ← hover.queue, hwaiters]
      rfl

theorem Inv.wake (h : Inv max s) {c : Call} (hc : c ∈ s.calls) (hphase : c.phase ≠ .waiting) :
    Inv max (wake c.id s) := by
  have hmem : c ∈ ofKey c.key s.calls := mem_ofKey.mpr ⟨hc, rfl⟩
  have hcounts : Counts max (s.heap c.lock) (ofKey c.key (s.calls.map (Call.goOn c.id .running))) := by
    rw [ofKey_map fun _ => key_goOn]
    exact (h.counts hc).wake (nodup_ofKey h.ids) hmem hphase
  have hothers : ∀ key, key ≠ c.key →
      ofKey key (s.calls.map (Call.goOn c.id .running)) = ofKey key s.calls := fun key hk =>
    h.map_goOn (h.named c hc) hk
  unfold MxLocks.wake
  refine ⟨nodup_goOn h.ids, ?_, h.granted_lt, h.fresh, h.apart, ?_, ?_, ?_⟩
  · intro x hx
    obtain ⟨y, hy, rfl⟩ := List.mem_map.mp hx
    rw [id_goOn, key_goOn]
    exact h.named y hy
  · intro x hx
    obtain ⟨y, hy, rfl⟩ := List.mem_map.mp hx
    rw [key_goOn, lock_goOn]
    exact h.held y hy
  · intro key
    show KeyInv max (entry key s) (ofKey key (s.calls.map (Call.goOn c.id .running)))
    by_cases hk : key = c.key
    · subst hk
      have hentry : entry c.key s = some (s.heap c.lock) := by
        unfold entry
        rw [h.held c hc]
        rfl
      rw [hentry]
      refine ⟨iff_of_false (by rintro ⟨⟩) ?_, ?_⟩
      · rw [ofKey_map fun _ => key_goOn]
        exact List.ne_nil_of_mem (List.mem_map_of_mem hmem)
      · rintro l ⟨⟩
        exact hcounts
    · rw [hothers key hk]
      exact h.keys key
  · intro key
    show calledOf key s = grantedOf key s ++ waiters (ofKey key (s.calls.map _))
    by_cases hk : key = c.key
    · subst hk
      rw [← hcounts.queue, (h.counts hc).queue]
      exact h.order c.key
    · rw [hothers key hk]
      exact h.order key

theorem inPhase_eq_some {id : ℕ} {phase : Phase} {c : Call} (h : inPhase s id phase = some c) :
    c ∈ s.calls ∧ c.id = id ∧ c.phase = phase := by
  have hp := List.find?_some h
  rw [Bool.and_eq_true, decide_eq_true_iff, decide_eq_true_iff] at hp
  exact ⟨List.mem_of_find?_eq_some h, hp⟩

/-- The `finally` of a call leaves the calls of other keys alone. -/
theorem Inv.ofKey_release (h : Inv max s) {c : Call} (hc : c ∈ s.calls) {k : Text} (hk : k ≠ c.key) :
    ofKey k (MxLocks.release c s).calls = ofKey k s.calls := by
  refine h.filter_leave (h.named c hc) hk ?_
  show ofKey k (passOn c s).calls = _
  cases hqueue : (s.heap c.lock).queue with
  | nil => rw [passOn_nil hqueue]
  | cons next rest =>
    rw [passOn_cons hqueue]
    exact h.map_goOn (h.called_next hc hqueue) hk

theorem ofKey_withMxLock {k : Text} (hk : k ≠ key) :
    ofKey k (withMxLock max key s).calls = ofKey k s.calls := by
  have hopen : (openLock key s).2.calls = s.calls := by
    unfold openLock
    cases s.locks key <;> rfl
  unfold withMxLock takeSlot
  dsimp only
  rw [← hopen]
  split_ifs
  · show ofKey k ((openLock key s).2.calls ++ [_]) = _
    rw [ofKey_append, if_neg (Ne.symm hk), List.append_nil]
  · show ofKey k ((openLock key s).2.calls ++ [_]) = _
    rw [ofKey_append, if_neg (Ne.symm hk), List.append_nil]

/-- **Every step keeps the invariant.** -/
theorem Inv.step (h : Inv max s) {a : Action} (ha : Enabled s a) : Inv max (step max s a) := by
  cases a with
  | call key => exact h.withMxLock key
  | wake id =>
    obtain ⟨c, hc⟩ := Option.isSome_iff_exists.mp ha
    obtain ⟨hmem, rfl, hphase⟩ := inPhase_eq_some hc
    exact h.wake hmem (by rw [hphase]; decide)
  | settle id how =>
    obtain ⟨c, hc⟩ := Option.isSome_iff_exists.mp ha
    obtain ⟨hmem, rfl, hphase⟩ := inPhase_eq_some hc
    show Inv max ((inPhase s c.id .running).elim s fun c => MxLocks.release c s)
    rw [hc]
    exact h.release hmem (by rw [hphase]; decide)

/-- **A step leaves the calls of every other key alone.** -/
theorem Inv.ofKey_step (h : Inv max s) {a : Action} (ha : Enabled s a) {k : Text}
    (hk : a.key s ≠ some k) : ofKey k (MxLocks.step max s a).calls = ofKey k s.calls := by
  cases a with
  | call key => exact ofKey_withMxLock fun heq => hk (congrArg some heq.symm)
  | wake id =>
    obtain ⟨c, hc⟩ := Option.isSome_iff_exists.mp ha
    obtain ⟨hmem, rfl, _⟩ := inPhase_eq_some hc
    have hnamed := h.named c hmem
    exact h.map_goOn hnamed fun heq => hk (hnamed.trans (congrArg some heq.symm))
  | settle id how =>
    obtain ⟨c, hc⟩ := Option.isSome_iff_exists.mp ha
    obtain ⟨hmem, rfl, _⟩ := inPhase_eq_some hc
    have hnamed := h.named c hmem
    show ofKey k ((inPhase s c.id .running).elim s fun c => MxLocks.release c s).calls = _
    rw [hc]
    exact h.ofKey_release hmem fun heq => hk (hnamed.trans (congrArg some heq.symm))

end States

/-! ## Runs -/

/-- What holds of the semaphores at any time. -/
structure Exact (max : ℕ) (s : State) : Prop where
  running_le : ∀ key, (running (ofKey key s.calls)).length ≤ max
  calledOf_eq : ∀ key, calledOf key s = grantedOf key s ++ waiters (ofKey key s.calls)
  holders_eq : ∀ key, waiters (ofKey key s.calls) ≠ [] →
    (holders (ofKey key s.calls)).length = max
  apart : ∀ a, Enabled s a → ∀ key, a.key s ≠ some key →
    ofKey key (step max s a).calls = ofKey key s.calls
  entry_iff : ∀ key, (s.locks key).isSome = true ↔ ∃ c ∈ s.calls, c.key = key
  lock_eq : ∀ c ∈ s.calls, s.locks c.key = some c.lock

theorem Inv.exact {max : ℕ} {s : State} (h : Inv max s) : Exact max s where
  running_le key := by
    have hsub : (running (ofKey key s.calls)).length ≤ (holders (ofKey key s.calls)).length := by
      refine (List.monotone_filter_right _ fun c hc => ?_).length_le
      rw [decide_eq_true_iff] at hc ⊢
      rw [hc]
      decide
    have hcounts := (h.keys key).getD
    have hactive := hcounts.active
    have hcapped := hcounts.capped
    omega
  calledOf_eq := h.order
  holders_eq key hwait := by
    have hcounts := (h.keys key).getD
    have hfull := hcounts.full (hcounts.queue ▸ hwait)
    rw [hcounts.active] at hfull
    exact Nat.cast_injective hfull
  apart _ ha _ hk := h.ofKey_step ha hk
  entry_iff key := by
    have hused := (h.keys key).used
    unfold entry at hused
    rw [Option.map_eq_none_iff] at hused
    rw [Option.isSome_iff_ne_none, ne_eq, hused]
    constructor
    · intro hne
      obtain ⟨c, hc⟩ := List.exists_mem_of_ne_nil _ hne
      exact ⟨c, mem_ofKey.mp hc⟩
    · rintro ⟨c, hc⟩ hnil
      have hmem := mem_ofKey.mpr hc
      rw [hnil] at hmem
      exact List.not_mem_nil hmem
  lock_eq := h.held

/-- **The semaphore of every key is exact**, in whatever order calls come, wake up and end. -/
theorem run_exact {max : ℕ} {as : List Action} (h : Run.Along (step max) Enabled idle as) :
    Exact max (Run.run (step max) idle as) :=
  (Run.invariant (Inv max) (fun _ _ hs ha => hs.step ha) inv_idle h).exact

/-- With one slot: the second call waits until the first ends, while another key is free. -/
theorem run_exact_handOver :
    Exact 1 (Run.run (step 1) idle
      [.call "a".toList, .call "a".toList, .call "b".toList, .settle 0 .threw, .wake 1,
        .settle 2 .resolved, .settle 1 .resolved, .call "a".toList]) :=
  run_exact (by decide)

end BunMail.Utils.MxLocks
