import BunMail.Inbound.Threading
import BunMail.Lib.Run

/-!
# What threading emits

The scanner gives ids without an angle bracket inside, so it reads a list of them back.  The chain of a
reply keeps its first id and the longest run of its newest ones that fits.
-/

namespace BunMail.Inbound

open CodeUnits

/-! ## What is extracted -/

/-- A valid id with no angle bracket inside. -/
def CleanId (id : CodeUnits) : Prop :=
  isValidMessageId id = true ∧
    ∃ body : CodeUnits, id = 0x3c :: body ++ [0x3e] ∧ 0x3c ∉ body ∧ 0x3e ∉ body

/-- What is being read starts with its only angle bracket. -/
def Reading (read : CodeUnits) : Prop := ∃ body : CodeUnits, read = 0x3c :: body ∧ 0x3c ∉ body ∧ 0x3e ∉ body

/-- What the scanner has collected. -/
structure Scan.Clean (s : Scan) : Prop where
  nodup : s.ids.Nodup
  clean : ∀ id ∈ s.ids, CleanId id
  reading : ∀ read ∈ s.start, Reading read

theorem reading_begin : Reading [0x3c] := ⟨[], rfl, List.not_mem_nil, List.not_mem_nil⟩

theorem Scan.Clean.turnInId {s : Scan} (h : s.Clean) {read : CodeUnits} (hread : Reading read)
    (c : UInt16) : (turnInId s read c).Clean := by
  obtain ⟨body, rfl, hopen, hclose⟩ := hread
  unfold Inbound.turnInId
  split_ifs with hgt hvalid hlt hlong
  · rw [Bool.and_eq_true, decide_eq_true_iff] at hvalid
    refine ⟨?_, ?_, fun _ hr => by cases hr⟩
    · refine List.nodup_append.mpr ⟨h.nodup, List.nodup_singleton _, ?_⟩
      rintro id hid id' hid' rfl
      exact hvalid.2 (List.mem_singleton.mp hid' ▸ hid)
    · intro id hid
      rcases List.mem_append.mp hid with hid | hid
      · exact h.clean id hid
      · obtain rfl := List.mem_singleton.mp hid
        exact ⟨hvalid.1, body, by rw [hgt], hopen, hclose⟩
  · exact ⟨h.nodup, h.clean, fun _ hr => by cases hr⟩
  · refine ⟨h.nodup, h.clean, fun r hr => ?_⟩
    obtain rfl := Option.some.inj hr
    rw [hlt]
    exact reading_begin
  · exact ⟨h.nodup, h.clean, fun _ hr => by cases hr⟩
  · refine ⟨h.nodup, h.clean, fun r hr => ?_⟩
    obtain rfl := Option.some.inj hr
    refine ⟨body ++ [c], rfl, ?_, ?_⟩
    · rw [List.mem_append, List.mem_singleton]
      exact fun hmem => hmem.elim hopen fun heq => hlt heq.symm
    · rw [List.mem_append, List.mem_singleton]
      exact fun hmem => hmem.elim hclose fun heq => hgt heq.symm

theorem Scan.Clean.turnOutside {s : Scan} (h : s.Clean) (c : UInt16) : (turnOutside s c).Clean := by
  unfold Inbound.turnOutside turnInComment
  split_ifs with _ _ _ _ _ hlt
  · exact ⟨h.nodup, h.clean, h.reading⟩
  · exact ⟨h.nodup, h.clean, h.reading⟩
  · exact ⟨h.nodup, h.clean, h.reading⟩
  · exact h
  · exact ⟨h.nodup, h.clean, h.reading⟩
  · refine ⟨h.nodup, h.clean, fun r hr => ?_⟩
    obtain rfl := Option.some.inj hr
    rw [hlt]
    exact reading_begin
  · exact h

theorem Scan.Clean.turn {s : Scan} (h : s.Clean) (c : UInt16) : (turn s c).Clean := by
  unfold Inbound.turn
  split_ifs
  · exact ⟨h.nodup, h.clean, h.reading⟩
  · exact ⟨h.nodup, h.clean, h.reading⟩
  · exact h
  · cases hstart : s.start with
    | some read => exact h.turnInId (h.reading read hstart) c
    | none => exact h.turnOutside c

/-- **Only clean ids are extracted, each once.** -/
theorem clean_extractMessageIds (value : CodeUnits) :
    (extractMessageIds value).Nodup ∧ ∀ id ∈ extractMessageIds value, CleanId id := by
  have hbegin : Scan.begin.Clean :=
    ⟨List.nodup_nil, fun _ h => absurd h List.not_mem_nil, fun _ h => by cases h⟩
  have hend : ((unfold_ value).foldl turn .begin).Clean :=
    Run.foldl_invariant Scan.Clean (fun s c h => h.turn c) hbegin _
  exact ⟨hend.nodup, hend.clean⟩

/-- Comments are skipped, and an id that is not closed starts again. -/
example : extractMessageIds (.of "(<x@y> (z)) <a@b> <c <d@[e]> <a@b>") = [.of "<a@b>", .of "<d@[e]>"] := by
  decide +kernel

/-! ## Reading a list back -/

theorem mem_of_head? {s : CodeUnits} {x u : UInt16} (h : s.head? = some x) (hu : u ∈ s) :
    u = x ∨ u ∈ s.tail := by
  cases s with
  | nil => cases h
  | cons y s =>
    obtain rfl := Option.some.inj h
    exact List.mem_cons.mp hu

theorem mem_of_getLast? {s : CodeUnits} {x u : UInt16} (h : s.getLast? = some x) (hu : u ∈ s) :
    u = x ∨ u ∈ s.dropLast := by
  rw [← List.dropLast_append_getLast? x h, List.mem_append, List.mem_singleton] at hu
  exact hu.symm

/-- The units of a valid id. -/
theorem unit_of_pattern {id : CodeUnits} (h : messageIdPattern id = true) {u : UInt16} (hu : u ∈ id) :
    isAtext u = true ∨ isDtext u = true ∨ u ∈ ([0x3c, 0x40, 0x5b, 0x5d, 0x3e] : CodeUnits) := by
  unfold messageIdPattern isRightPart at h
  simp only [Bool.and_eq_true, Bool.or_eq_true, decide_eq_true_eq] at h
  obtain ⟨⟨⟨⟨hfirst, _⟩, hat⟩, hlast⟩, hright⟩ := h
  rcases mem_of_head? hfirst hu with rfl | hu
  · decide
  rw [← List.takeWhile_append_dropWhile (p := isAtext) (l := id.tail), List.mem_append] at hu
  rcases hu with hu | hu
  · exact .inl (List.mem_takeWhile_imp hu)
  rcases mem_of_head? hat hu with rfl | hu
  · decide
  rcases mem_of_getLast? hlast hu with rfl | hu
  · decide
  rcases hright with ⟨_, hall⟩ | ⟨⟨hopen, hclose⟩, hall⟩
  · exact .inl (List.all_eq_true.mp hall u hu)
  rcases mem_of_head? hopen hu with rfl | hu
  · decide
  rcases mem_of_getLast? hclose hu with rfl | hu
  · decide
  · exact .inr (.inl (List.all_eq_true.mp hall u hu))

theorem newline_notMem {id : CodeUnits} (h : isValidMessageId id = true) : (0x0a : UInt16) ∉ id := by
  intro hmem
  unfold isValidMessageId at h
  rw [Bool.and_eq_true] at h
  have hunit := unit_of_pattern h.2 hmem
  revert hunit
  decide

theorem unfold_of_notMem {s : CodeUnits} (h : (0x0a : UInt16) ∉ s) : unfold_ s = s := by
  induction s with
  | nil => rfl
  | cons u s ih =>
    have hfolds : foldsHere (u :: s) = false := by
      cases s with
      | nil => rfl
      | cons v s =>
        obtain ⟨hu, hs⟩ := List.ne_and_not_mem_of_not_mem_cons h
        obtain ⟨hv, _⟩ := List.ne_and_not_mem_of_not_mem_cons hs
        show ((decide (u = 0x0a) && isBlank v) ||
          (decide (u = 0x0d) && decide (v = 0x0a) && s.head?.any isBlank)) = false
        rw [decide_eq_false hu.symm, decide_eq_false hv.symm, Bool.false_and, Bool.and_false,
          Bool.false_and, Bool.false_or]
    unfold unfold_
    rw [hfolds, ih fun hs => h (List.mem_cons_of_mem _ hs)]
    rfl

/-- Outside ids and comments. -/
structure Scan.Outside (s : Scan) : Prop where
  start : s.start = none
  skipping : s.skipping = false
  depth : s.depth = 0
  escaped : s.escaped = false

theorem turn_of_reading {s : Scan} (hskip : s.skipping = false) (hesc : s.escaped = false)
    {read : CodeUnits} (hstart : s.start = some read) (c : UInt16) : turn s c = turnInId s read c := by
  unfold turn
  rw [if_neg (hesc ▸ Bool.false_ne_true), if_neg (hskip ▸ Bool.false_ne_true), hstart, Option.elim_some]

theorem turn_of_outside {s : Scan} (h : s.Outside) (c : UInt16) : turn s c =
    if c = 0x28 then { s with depth := 1 } else if c = 0x3c then { s with start := some [c] } else s := by
  unfold turn turnOutside
  rw [if_neg (h.escaped ▸ Bool.false_ne_true), if_neg (h.skipping ▸ Bool.false_ne_true), h.start,
    Option.elim_none, if_neg h.depth.not_gt]

theorem foldl_turn_body {s : Scan} (hskip : s.skipping = false) (hesc : s.escaped = false)
    {body read : CodeUnits} (hstart : s.start = some read) (hopen : (0x3c : UInt16) ∉ body)
    (hclose : (0x3e : UInt16) ∉ body) (hlength : read.length + body.length ≤ MAX_MESSAGE_ID_LENGTH) :
    body.foldl turn s = { s with start := some (read ++ body) } := by
  induction body generalizing s read with
  | nil =>
    rw [List.append_nil, ← hstart]
    rfl
  | cons c body ih =>
    obtain ⟨hlt, hopen⟩ := List.ne_and_not_mem_of_not_mem_cons hopen
    obtain ⟨hgt, hclose⟩ := List.ne_and_not_mem_of_not_mem_cons hclose
    rw [List.length_cons] at hlength
    have hturn : turn s c = { s with start := some (read ++ [c]) } := by
      rw [turn_of_reading hskip hesc hstart]
      unfold turnInId
      rw [if_neg hgt.symm, if_neg hlt.symm, if_neg (by omega)]
    have hrest := ih (s := { s with start := some (read ++ [c]) }) hskip hesc rfl hopen hclose (by
      rw [List.length_append, List.length_singleton]
      omega)
    rw [List.foldl_cons, hturn, hrest, List.append_assoc]
    rfl

/-- A clean id is read as one. -/
theorem foldl_turn_id {s : Scan} (h : s.Outside) {id : CodeUnits} (hid : CleanId id)
    (hnew : id ∉ s.ids) : id.foldl turn s = { s with ids := s.ids ++ [id] } := by
  obtain ⟨hvalid, body, rfl, hopen, hclose⟩ := hid
  have hlength : (0x3c :: body ++ [0x3e]).length ≤ MAX_MESSAGE_ID_LENGTH := by
    unfold isValidMessageId at hvalid
    rw [Bool.and_eq_true, decide_eq_true_iff] at hvalid
    exact hvalid.1
  have hfirst : turn s 0x3c = { s with start := some [0x3c] } := by
    rw [turn_of_outside h, if_neg (by decide), if_pos rfl]
  rw [List.length_append, List.length_cons, List.length_singleton] at hlength
  have hstart : Scan.start { s with start := some [0x3c] } = some [0x3c] := rfl
  have hbody := foldl_turn_body (s := { s with start := some [0x3c] }) h.skipping h.escaped
    hstart hopen hclose (by
      rw [List.length_singleton]
      omega)
  have hlast := turn_of_reading (s := { s with start := some ([0x3c] ++ body) }) h.skipping h.escaped
    rfl 0x3e
  rw [List.cons_append, List.foldl_cons, hfirst, List.foldl_append, hbody, List.foldl_cons,
    List.foldl_nil, hlast]
  unfold turnInId
  have haccept : (isValidMessageId (0x3c :: body ++ [0x3e]) &&
      decide ((0x3c :: body ++ [0x3e]) ∉ s.ids)) = true := by
    rw [hvalid, Bool.true_and]
    exact decide_eq_true hnew
  rw [if_pos rfl]
  refine (if_pos haccept).trans ?_
  rw [← h.start]
  rfl

theorem turn_space {s : Scan} (h : s.Outside) : turn s 0x20 = s := by
  rw [turn_of_outside h, if_neg (by decide), if_neg (by decide)]

/-- **A list of clean ids is read back.** -/
theorem foldl_turn_spaced {ids : List CodeUnits} {s : Scan} (h : s.Outside)
    (hclean : ∀ id ∈ ids, CleanId id) (hnodup : (s.ids ++ ids).Nodup) :
    (spaced ids).foldl turn s = { s with ids := s.ids ++ ids } := by
  induction ids generalizing s with
  | nil =>
    rw [List.append_nil]
    rfl
  | cons id ids ih =>
    have hnew : id ∉ s.ids := fun hmem =>
      (List.nodup_append.mp hnodup).2.2 id hmem id List.mem_cons_self rfl
    have hid := foldl_turn_id h (hclean id List.mem_cons_self) hnew
    have hnodup' : ((s.ids ++ [id]) ++ ids).Nodup := by
      rw [List.append_assoc]
      exact hnodup
    have hout : Scan.Outside { s with ids := s.ids ++ [id] } :=
      ⟨h.start, h.skipping, h.depth, h.escaped⟩
    have hrest := ih hout (fun x hx => hclean x (List.mem_cons_of_mem _ hx)) hnodup'
    cases ids with
    | nil =>
      unfold spaced
      rw [List.intercalate_singleton]
      exact hid
    | cons next ids =>
      unfold spaced at hrest ⊢
      rw [List.intercalate_cons_cons, List.foldl_append, List.foldl_append, hid, List.foldl_cons,
        List.foldl_nil, turn_space hout, hrest, List.append_assoc]
      rfl

theorem newline_notMem_spaced {ids : List CodeUnits} (h : ∀ id ∈ ids, CleanId id) :
    (0x0a : UInt16) ∉ spaced ids := by
  induction ids with
  | nil => exact List.not_mem_nil
  | cons id ids ih =>
    have hid := newline_notMem (h id List.mem_cons_self).1
    have hrest := ih fun x hx => h x (List.mem_cons_of_mem _ hx)
    cases ids with
    | nil =>
      unfold spaced
      rwa [List.intercalate_singleton]
    | cons next ids =>
      unfold spaced at hrest ⊢
      rw [List.intercalate_cons_cons, List.mem_append, List.mem_append, List.mem_singleton]
      rintro ((hmem | hmem) | hmem)
      · exact hid hmem
      · exact absurd hmem (by decide)
      · exact hrest hmem

theorem extractMessageIds_spaced {ids : List CodeUnits} (hclean : ∀ id ∈ ids, CleanId id)
    (hnodup : ids.Nodup) : extractMessageIds (spaced ids) = ids := by
  unfold extractMessageIds
  have hfold := foldl_turn_spaced (s := .begin) ⟨rfl, rfl, rfl, rfl⟩ hclean hnodup
  rw [unfold_of_notMem (newline_notMem_spaced hclean), hfold]
  rfl

/-! ## The chain of a reply -/

/-- At most `MAX_THREAD_IDS` ids, in at most as many characters as a header may have. -/
def WithinLimits (ids : List CodeUnits) : Prop :=
  ids.length ≤ MAX_THREAD_IDS ∧ (spaced ids).length ≤ MAX_CUSTOM_HEADER_VALUE_LENGTH

/-- The first id of the chain, followed by the longest run of its newest ids within the limits. -/
def NewestWithin (chain ids : List CodeUnits) : Prop :=
  ∃ first older run, chain = first :: older ∧ ids = first :: run ∧ run <:+ older ∧ WithinLimits ids ∧
    ∀ run', run' <:+ older → WithinLimits (first :: run') → run'.length ≤ run.length

/-- **The oldest ids after the first are dropped until the rest fits.** -/
theorem fitLoop_spec {maxLength : ℕ} {first : CodeUnits} (hfirst : first.length ≤ maxLength)
    (turns : ℕ) {run : List CodeUnits} (hturns : run.length ≤ turns)
    (hpair : ∀ x ∈ run, (spaced [first, x]).length ≤ maxLength) :
    ∃ kept, fitLoop maxLength turns (first :: run) = first :: kept ∧ kept <:+ run ∧
      (spaced (first :: kept)).length ≤ maxLength ∧
      ∀ run', run' <:+ run → (spaced (first :: run')).length ≤ maxLength →
        run'.length ≤ kept.length := by
  have hsingle : (spaced [first]).length ≤ maxLength := by
    unfold spaced
    rwa [List.intercalate_singleton]
  induction turns generalizing run with
  | zero =>
    obtain rfl := List.length_eq_zero_iff.mp (Nat.le_zero.mp hturns)
    exact ⟨[], rfl, List.suffix_refl _, hsingle, fun run' h _ => h.length_le⟩
  | succ turns ih =>
    by_cases hlong : maxLength < (spaced (first :: run)).length
    · cases run with
      | nil => exact absurd hsingle (not_le.mpr hlong)
      | cons x rest =>
        cases rest with
        | nil => exact absurd (hpair x List.mem_cons_self) (not_le.mpr hlong)
        | cons y rest =>
          have hrest := @ih (y :: rest) (Nat.le_of_succ_le_succ hturns) fun z hz =>
            hpair z (List.mem_cons_of_mem _ hz)
          obtain ⟨kept, hkept, hsuffix, hfits, hlongest⟩ := hrest
          refine ⟨kept, ?_, hsuffix.trans (List.suffix_cons _ _), hfits, fun run' hrun' hrunfits => ?_⟩
          · unfold fitLoop
            rw [if_pos ⟨by simp, hlong⟩, if_pos (by simp)]
            exact hkept
          · rcases List.suffix_cons_iff.mp hrun' with rfl | hrun'
            · exact absurd hrunfits (not_le.mpr hlong)
            · exact hlongest run' hrun' hrunfits
    · refine ⟨run, ?_, List.suffix_refl _, not_lt.mp hlong, fun run' h _ => h.length_le⟩
      unfold fitLoop
      rw [if_neg fun h => hlong h.2]

theorem capThreadIds_cons (first : CodeUnits) (older : List CodeUnits) :
    capThreadIds (first :: older) MAX_THREAD_IDS = first :: older.drop (older.length - 19) := by
  unfold capThreadIds MAX_THREAD_IDS
  rw [List.length_cons]
  by_cases h : older.length + 1 ≤ 20
  · rw [if_pos h, Nat.sub_eq_zero_of_le (by omega), List.drop_zero]
  · rw [if_neg h, if_neg (by decide)]
    have hdrop : older.length + 1 - (20 - 1) = older.length - 19 + 1 := by omega
    rw [hdrop, List.drop_succ_cons]
    rfl

theorem length_le_of_clean {id : CodeUnits} (h : CleanId id) : id.length ≤ 250 := by
  have hvalid := h.1
  unfold isValidMessageId MAX_MESSAGE_ID_LENGTH at hvalid
  rw [Bool.and_eq_true, decide_eq_true_iff] at hvalid
  exact hvalid.1

/-- Two ids always fit. -/
theorem length_pair {a b : CodeUnits} (ha : CleanId a) (hb : CleanId b) :
    (spaced [a, b]).length ≤ MAX_CUSTOM_HEADER_VALUE_LENGTH := by
  have h₁ := length_le_of_clean ha
  have h₂ := length_le_of_clean hb
  rw [length_spaced_cons]
  unfold spaced MAX_CUSTOM_HEADER_VALUE_LENGTH
  rw [List.intercalate_singleton]
  omega

/-- **Both rules together keep the first id and the longest run of the newest.** -/
theorem newestWithin {chain : List CodeUnits} (hne : chain ≠ []) (hclean : ∀ id ∈ chain, CleanId id) :
    NewestWithin chain
      (fitThreadIds (capThreadIds chain MAX_THREAD_IDS) MAX_CUSTOM_HEADER_VALUE_LENGTH) := by
  obtain ⟨first, older, rfl⟩ := List.exists_cons_of_ne_nil hne
  have hfirst := hclean first List.mem_cons_self
  have holder : ∀ x ∈ older, CleanId x := fun x hx => hclean x (List.mem_cons_of_mem _ hx)
  have hcap : older.drop (older.length - 19) <:+ older := List.drop_suffix _ _
  have hlength : (older.drop (older.length - 19)).length ≤ 19 := by
    rw [List.length_drop]
    omega
  have hshort : first.length ≤ MAX_CUSTOM_HEADER_VALUE_LENGTH := by
    have h := length_le_of_clean hfirst
    unfold MAX_CUSTOM_HEADER_VALUE_LENGTH
    omega
  obtain ⟨kept, hkept, hsuffix, hfits, hlongest⟩ := @fitLoop_spec
    MAX_CUSTOM_HEADER_VALUE_LENGTH first hshort (first :: older.drop (older.length - 19)).length
    (older.drop (older.length - 19)) (Nat.le_succ _) fun x hx => length_pair hfirst (holder x (hcap.subset hx))
  refine ⟨first, older, kept, rfl, ?_, hsuffix.trans hcap, ⟨?_, ?_⟩, fun run' hrun' hwithin => ?_⟩
  · rw [capThreadIds_cons]
    exact hkept
  · rw [capThreadIds_cons]
    unfold fitThreadIds
    rw [hkept, List.length_cons]
    have hle := hsuffix.length_le
    unfold MAX_THREAD_IDS
    omega
  · rw [capThreadIds_cons]
    unfold fitThreadIds
    rw [hkept]
    exact hfits
  · refine hlongest run' ?_ hwithin.2
    have hcount := hwithin.1
    rw [List.length_cons] at hcount
    unfold MAX_THREAD_IDS at hcount
    refine List.suffix_of_suffix_length_le hrun' hcap ?_
    have hle := hrun'.length_le
    rw [List.length_drop]
    omega

theorem sublist_capThreadIds (ids : List CodeUnits) (max : ℕ) :
    (capThreadIds ids max).Sublist ids := by
  unfold capThreadIds lastIds
  split_ifs with hfew hone
  · exact List.Sublist.refl _
  · exact List.Sublist.refl _
  · exact List.drop_sublist _ _
  · cases ids with
    | nil => simp
    | cons id ids =>
      have hdrop : (id :: ids).drop ((id :: ids).length - (max - 1)) =
          ids.drop (ids.length - (max - 1)) := by
        rw [List.length_cons] at hfew ⊢
        have heq : ids.length + 1 - (max - 1) = ids.length - (max - 1) + 1 := by omega
        rw [heq, List.drop_succ_cons]
      rw [hdrop]
      exact (List.drop_sublist _ _).cons_cons id

/-- A capped list is read back. -/
theorem extractMessageIds_capThreadIds (value : CodeUnits) (max : ℕ) :
    extractMessageIds (spaced (capThreadIds (extractMessageIds value) max)) =
      capThreadIds (extractMessageIds value) max := by
  obtain ⟨hnodup, hclean⟩ := clean_extractMessageIds value
  have hsub := sublist_capThreadIds (extractMessageIds value) max
  exact extractMessageIds_spaced (fun id hid => hclean id (hsub.subset hid)) (hnodup.sublist hsub)

/-- **What a received message stores is read again as it was.** -/
theorem extractMessageIds_stored (lines : List RawHeaderLine) :
    extractMessageIds ((joinThreadIds (threadingIdsFromHeaderLines lines).references).getD []) =
      (threadingIdsFromHeaderLines lines).references := by
  unfold joinThreadIds
  split_ifs with h
  · rw [h]
    rfl
  · exact extractMessageIds_capThreadIds _ _

/-! ## Reply headers -/

/-- The chain of a reply: the parent's, without its own id, and that id last. -/
def replyChain (parent : StoredThreading) (own : CodeUnits) : List CodeUnits :=
  (parentChain parent).filter (fun id => id ≠ own) ++ [own]

/-- What the headers of a reply are. -/
structure ThreadedBy (parent : StoredThreading) (headers : ReplyThreadingHeaders) : Prop where
  first : (extractMessageIds (parent.messageId.getD [])).head? = some headers.inReplyTo
  references : ∃ ids, headers.references = spaced ids ∧ ids.Nodup ∧
    (∀ id ∈ ids, isValidMessageId id = true) ∧ WithinLimits ids ∧
    ids.getLast? = some headers.inReplyTo ∧ NewestWithin (replyChain parent headers.inReplyTo) ids

theorem clean_parentChain (parent : StoredThreading) :
    (parentChain parent).Nodup ∧ ∀ id ∈ parentChain parent, CleanId id := by
  unfold parentChain
  dsimp only
  split_ifs
  · exact clean_extractMessageIds _
  · exact clean_extractMessageIds _
  · exact clean_extractMessageIds _

/-- What is kept of a chain is a part of it that ends where it does. -/
theorem NewestWithin.sublist {chain ids : List CodeUnits} (h : NewestWithin chain ids)
    (hclean : ∀ id ∈ chain, CleanId id) :
    ids.Sublist chain ∧ ids.getLast? = chain.getLast? := by
  obtain ⟨first, older, run, rfl, rfl, hsuffix, _, hlongest⟩ := h
  refine ⟨hsuffix.sublist.cons_cons first, ?_⟩
  obtain ⟨dropped, rfl⟩ := hsuffix
  cases hrun : run with
  | cons x run =>
    rw [List.getLast?_cons_cons, ← List.cons_append, List.getLast?_append_of_ne_nil _ (by simp)]
  | nil =>
    -- a run of one id fits, so nothing was dropped
    rw [List.append_nil]
    cases hd : dropped.getLast? with
    | none => rw [List.getLast?_eq_none_iff.mp hd]
    | some x =>
      obtain ⟨front, rfl⟩ := List.getLast?_eq_some_iff.mp hd
      have hx : CleanId x := hclean x (by simp)
      have hone := hlongest [x] (by
        rw [hrun, List.append_nil]
        exact List.suffix_append _ _)
        ⟨by simp [MAX_THREAD_IDS], length_pair (hclean first List.mem_cons_self) hx⟩
      rw [hrun] at hone
      exact absurd hone (by simp)

/-- **Threading emits nothing but valid ids, and reads them back.**  Without an id of the parent there
are no headers; with one they are those of the chain.  A stored list is read again as it is, capped or
not. -/
theorem threading_exact :
    (∀ parent, (buildReplyHeaders parent).elim
      (extractMessageIds (parent.messageId.getD []) = []) (ThreadedBy parent)) ∧
    (∀ value, extractMessageIds (spaced (extractMessageIds value)) = extractMessageIds value) ∧
    ∀ value max, extractMessageIds (spaced (capThreadIds (extractMessageIds value) max)) =
      capThreadIds (extractMessageIds value) max := by
  refine ⟨fun parent => ?_, fun value => ?_, fun value max => ?_⟩
  · unfold buildReplyHeaders
    cases hids : extractMessageIds (parent.messageId.getD []) with
    | nil => rfl
    | cons own rest =>
      have hown : CleanId own := (clean_extractMessageIds (parent.messageId.getD [])).2 own (by
        rw [hids]
        exact List.mem_cons_self)
      obtain ⟨hnodup, hclean⟩ := clean_parentChain parent
      have hchain : ∀ id ∈ replyChain parent own, CleanId id := by
        intro id hid
        rcases List.mem_append.mp hid with hid | hid
        · exact hclean id (List.mem_filter.mp hid).1
        · exact List.mem_singleton.mp hid ▸ hown
      have hchainNodup : (replyChain parent own).Nodup := by
        refine List.nodup_append.mpr ⟨hnodup.filter _, List.nodup_singleton _, ?_⟩
        rintro id hid id' hid' rfl
        exact of_decide_eq_true (List.mem_filter.mp hid).2 (List.mem_singleton.mp hid')
      have hnewest := newestWithin (List.append_ne_nil_of_right_ne_nil _ (List.cons_ne_nil _ _)) hchain
      obtain ⟨hsub, hlast⟩ := hnewest.sublist hchain
      refine ⟨by rw [hids]; rfl, _, rfl, hchainNodup.sublist hsub,
        fun id hid => (hchain id (hsub.subset hid)).1, ?_, ?_, hnewest⟩
      · obtain ⟨_, _, _, _, _, _, hwithin, _⟩ := hnewest
        exact hwithin
      · rw [hlast]
        rw [List.getLast?_append_of_ne_nil _ (List.cons_ne_nil _ _)]
        rfl
  · obtain ⟨hnodup, hclean⟩ := clean_extractMessageIds value
    exact extractMessageIds_spaced hclean hnodup
  · exact extractMessageIds_capThreadIds value max

end BunMail.Inbound
