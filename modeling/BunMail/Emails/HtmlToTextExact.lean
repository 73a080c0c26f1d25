import BunMail.Emails.TextPage

/-!
# What reaches the text of an HTML mail

The output is bounded, its lines are trimmed, and what it shows is written by the text, the entities,
the list markers and the targets of the links, in their order.  The last pass trims more than the
collector takes for white space: a line of nothing but white space that HTML keeps comes out empty, and
may then stand next to another empty line.
-/

namespace BunMail.Emails.HtmlToText

open CodeUnits

/-! ## What is written -/

/-- The units other than HTML white space. -/
def kept (s : CodeUnits) : CodeUnits := s.filter fun c => !isSpace c

/-- A target that may be written for an `href`. -/
structure SafeTarget (href target : CodeUnits) : Prop where
  sublist : target.Sublist (decodeEntities href)
  scheme : ∃ scheme ∈ [of "http:", of "https:", of "mailto:"],
    toLowerCase (target.take scheme.length) = scheme
  clean : ∀ c ∈ target, isWhite c = false ∧ 0x1f < c ∧ ¬(0x7f ≤ c ∧ c ≤ 0x9f)

/-- A link opened among the pieces before, whose target this is. -/
def OpenedBefore (before : List Piece) (target : CodeUnits) : Prop :=
  ∃ tag href, Piece.tag tag ∈ before ∧ tag.name = of "a" ∧ tag.closing = false ∧ tag.href = some href ∧
    SafeTarget href target

/-- What the pieces may write: text writes itself, a tag the marker of an item or the target of a link,
and what is hidden nothing. -/
inductive Written : List Piece → List Piece → CodeUnits → Prop
  | nil {before : List Piece} : Written before [] []
  | unit {before pieces : List Piece} {c : UInt16} {rest : CodeUnits} :
      Written (before ++ [.unit c]) pieces rest → Written before (.unit c :: pieces) (c :: rest)
  | entity {before pieces : List Piece} {text rest : CodeUnits} :
      Written (before ++ [.entity text]) pieces rest →
      Written before (.entity text :: pieces) (text ++ rest)
  | hidden {before pieces : List Piece} {rest : CodeUnits} :
      Written (before ++ [.hidden]) pieces rest → Written before (.hidden :: pieces) rest
  | tag {before pieces : List Piece} {tag : ParsedTag} {rest : CodeUnits} :
      Written (before ++ [.tag tag]) pieces rest → Written before (.tag tag :: pieces) rest
  | item {before pieces : List Piece} {tag : ParsedTag} {rest : CodeUnits} : tag.name = of "li" →
      tag.closing = false → Written (before ++ [.tag tag]) pieces rest →
      Written before (.tag tag :: pieces) (of "-" ++ rest)
  | target {before pieces : List Piece} {tag : ParsedTag} {target shown rest : CodeUnits} :
      tag.name = of "a" → tag.closing = true → OpenedBefore before target →
      shown = target ∨ shown = of "(" ++ target ++ of ")" →
      Written (before ++ [.tag tag]) pieces rest → Written before (.tag tag :: pieces) (shown ++ rest)

/-- **The conversion is bounded, clean, and drops what it says.** -/
structure Converts (input : CodeUnits) (pieces : List (CodeUnits × Piece)) (output : CodeUnits) :
    Prop where
  bounded : output.length ≤ MAX_TEXT_OUTPUT_LENGTH
  trimmed : ∀ line ∈ output.splitOn 0x0a, trim line = line
  spaced : ¬[[], []] <:+: output.splitOn 0x0a
  ends : output ≠ [] → Solid List.isEmpty (output.splitOn 0x0a)
  consumed : (pieces.map Prod.fst).flatten = boundedInput input
  forward : ∀ piece ∈ pieces, piece.1 ≠ []
  shown : ∃ written laid, Written [] (pieces.map Prod.snd) written ∧ kept laid <+: kept written ∧
    output = tidy laid

/-! ## The page -/

variable {page : Page} {value target href : CodeUnits} {before : List Piece}

theorem kept_append (s t : CodeUnits) : kept (s ++ t) = kept s ++ kept t := List.filter_append s t

theorem kept_units (owed : Owed) : kept owed.units = [] := by cases owed <;> rfl

theorem Page.kept_put (page : Page) (value : CodeUnits) : kept (page.put value).text = kept page.text ++ kept value := by
  unfold Page.put
  split_ifs with hvalue
  · rw [hvalue]
    exact (List.append_nil _).symm
  · rw [kept_append, kept_append, kept_units, List.nil_append]

theorem Page.kept_unit (page : Page) (c : UInt16) : kept (page.unit c).text = kept page.text ++ kept [c] := by
  unfold Page.unit
  split_ifs with hspace
  · have hnone : kept [c] = [] := by simp [kept, hspace]
    rw [page.text_space, hnone, List.append_nil]
  · exact page.kept_put [c]

theorem Page.kept_units (page : Page) (value : CodeUnits) :
    kept (page.units value).text = kept page.text ++ kept value := by
  induction value generalizing page with
  | nil => exact (List.append_nil _).symm
  | cons c value ih =>
    have hcons : kept (c :: value) = kept [c] ++ kept value := kept_append [c] value
    rw [hcons, ← List.append_assoc, ← page.kept_unit c]
    exact ih (page.unit c)

/-- No more than two line ends in a row, and none at the edge of the text. -/
structure Page.Ruled (page : Page) : Prop where
  sparse : Sparse 0x0a 0 page.text
  last : page.text.getLast? ≠ some 0x0a
  begun : page.text = [] → page.owed = .nothing

theorem sparse_of_notMem {n : ℕ} (h : 0x0a ∉ value) : Sparse 0x0a n value := by
  induction value generalizing n with
  | nil => trivial
  | cons c value ih =>
    rw [List.mem_cons, not_or] at h
    rw [Sparse, if_neg fun heq => h.1 heq.symm]
    exact ih h.2

theorem sparse_units (owed : Owed) (h : 0x0a ∉ value) : Sparse 0x0a 2 (owed.units ++ value) := by
  cases owed with
  | nothing => exact sparse_of_notMem h
  | space => exact sparse_of_notMem fun hmem => h ((List.mem_cons.mp hmem).resolve_left (by decide))
  | line => exact ⟨by decide, sparse_of_notMem h⟩
  | blank => exact ⟨by decide, by decide, sparse_of_notMem h⟩

theorem Page.Ruled.put (h : page.Ruled) (hvalue : 0x0a ∉ value) : (page.put value).Ruled := by
  unfold Page.put
  split_ifs with hnil
  · exact h
  have hrest : page.owed.units ++ value ≠ [] := List.append_ne_nil_of_right_ne_nil _ hnil
  have hlast : (page.text ++ (page.owed.units ++ value)).getLast? = value.getLast? := by
    obtain ⟨init, c, rfl⟩ := List.eq_nil_or_concat value |>.resolve_left hnil
    simp [List.concat_eq_append, ← List.append_assoc]
  refine ⟨?_, ?_, fun hempty => absurd (List.append_eq_nil_iff.mp hempty).2 hrest⟩
  · by_cases htext : page.text = []
    · have hunits : page.owed.units = [] := by rw [h.begun htext]; rfl
      show Sparse 0x0a 0 (page.text ++ (page.owed.units ++ value))
      rw [htext, hunits]
      exact sparse_of_notMem hvalue
    · exact h.sparse.append htext h.last (sparse_units page.owed hvalue)
  · show (page.text ++ (page.owed.units ++ value)).getLast? ≠ some 0x0a
    rw [hlast]
    exact fun hsome => hvalue (List.mem_of_getLast? hsome)

theorem Page.Ruled.owe {page' : Page} (h : page.Ruled) (htext : page'.text = page.text)
    (howed : page.text = [] → page'.owed = .nothing) : page'.Ruled :=
  ⟨htext ▸ h.sparse, htext ▸ h.last, fun hnil => howed (htext ▸ hnil)⟩

theorem Page.Ruled.space (h : page.Ruled) : page.space.Ruled := by
  refine h.owe page.text_space fun hnil => ?_
  unfold Page.space
  rw [if_neg fun hboth => hboth.1 hnil]
  exact h.begun hnil

theorem Page.Ruled.newline (h : page.Ruled) (blank : Bool) : (page.newline blank).Ruled := by
  refine h.owe (page.text_newline blank) fun hnil => ?_
  unfold Page.newline
  rw [if_pos hnil]
  exact h.begun hnil

theorem Page.Ruled.marker (h : page.Ruled) : (page.marker (of "-")).Ruled := by
  have hput : (page.put (of "-")).Ruled := h.put (by decide)
  refine hput.owe rfl fun hnil => ?_
  exact absurd (List.append_eq_nil_iff.mp (List.append_eq_nil_iff.mp hnil).2).2 (by decide)

theorem Page.Ruled.unit (h : page.Ruled) (c : UInt16) : (page.unit c).Ruled := by
  unfold Page.unit
  split_ifs with hspace
  · exact h.space
  · refine h.put fun hmem => hspace ?_
    rw [← List.mem_singleton.mp hmem]
    rfl

theorem Page.Ruled.units (h : page.Ruled) (value : CodeUnits) : (page.units value).Ruled := by
  induction value generalizing page with
  | nil => exact h
  | cons c value ih => exact ih (h.unit c)

/-! ## Links -/

theorem isStripped_eq_false {c : UInt16} (h : isStripped c = false) :
    isWhite c = false ∧ 0x1f < c ∧ ¬(0x7f ≤ c ∧ c ≤ 0x9f) := by
  unfold isStripped at h
  rw [Bool.or_eq_false_iff, Bool.or_eq_false_iff, decide_eq_false_iff_not, UInt16.not_le,
    Bool.and_eq_false_iff, decide_eq_false_iff_not, decide_eq_false_iff_not] at h
  exact ⟨h.1.1, h.1.2, fun hboth => h.2.elim (fun hnot => hnot hboth.1) fun hnot => hnot hboth.2⟩

theorem linkTarget_safe (h : linkTarget href = some target) : SafeTarget href target := by
  unfold linkTarget at h
  dsimp only at h
  split_ifs at h with hlong hlength hscheme
  obtain rfl := Option.some.inj h
  obtain ⟨scheme, hmem, heq⟩ := List.any_eq_true.mp hscheme
  refine ⟨List.filter_sublist, ⟨scheme, hmem, beq_iff_eq.mp heq⟩, fun c hc => isStripped_eq_false ?_⟩
  simpa using List.of_mem_filter hc

theorem SafeTarget.newline_notMem (h : SafeTarget href target) : 0x0a ∉ target := fun hmem =>
  absurd (h.clean 0x0a hmem).1 (by decide)

theorem OpenedBefore.mono (h : OpenedBefore before target) (piece : Piece) :
    OpenedBefore (before ++ [piece]) target := by
  obtain ⟨tag, href, hmem, hrest⟩ := h
  exact ⟨tag, href, List.mem_append_left _ hmem, hrest⟩

/-- The end of a link writes its target, in brackets or not, or nothing. -/
theorem closeLink_cases (page : Page) (link : OpenLink) : page.closeLink link = page ∨
    ∃ target ∈ link.target, page.closeLink link = page.put target ∨
      page.closeLink link = page.space.put (of "(" ++ target ++ of ")") := by
  unfold Page.closeLink
  cases link.target with
  | none => exact .inl rfl
  | some target =>
    dsimp only [Option.elim_some]
    split_ifs
    · exact .inr ⟨target, rfl, .inl rfl⟩
    · exact .inr ⟨target, rfl, .inr rfl⟩
    · exact .inl rfl

/-! ## The layout -/

/-- The page is ruled, and the target of the open link may be written. -/
structure Layout.Sound (before : List Piece) (l : Layout) : Prop where
  ruled : l.page.Ruled
  link : ∀ link ∈ l.link, ∀ target ∈ link.target, OpenedBefore before target

theorem Layout.sound_new : Layout.new.Sound [] :=
  ⟨⟨trivial, by decide, fun _ => rfl⟩, fun _ h => nomatch h⟩

/-- A piece writes so much. -/
def Adds (before : List Piece) (piece : Piece) (page page' : Page) : Prop :=
  ∃ added, kept page'.text = kept page.text ++ kept added ∧ ∀ pieces rest,
    Written (before ++ [piece]) pieces rest → Written before (piece :: pieces) (added ++ rest)

variable {l : Layout} {tag : ParsedTag}

theorem adds_tag {page' : Page} (h : page'.text = page.text) : Adds before (.tag tag) page page' := by
  refine ⟨[], ?_, fun _ _ => .tag⟩
  rw [h]
  exact (List.append_nil _).symm

theorem Layout.Sound.closeLink (h : l.Sound before) (hname : tag.name = of "a") (hclosing : tag.closing = true) :
    (l.link.elim l.page l.page.closeLink).Ruled ∧
      Adds before (.tag tag) l.page (l.link.elim l.page l.page.closeLink) := by
  cases hlink : l.link with
  | none => exact ⟨h.ruled, adds_tag rfl⟩
  | some link =>
    rw [Option.elim_some]
    rcases closeLink_cases l.page link with hclose | ⟨target, htarget, hclose⟩
    · rw [hclose]
      exact ⟨h.ruled, adds_tag rfl⟩
    have hopened := h.link link hlink target htarget
    obtain ⟨_, href, -, -, -, -, hsafe⟩ := id hopened
    rcases hclose with hclose | hclose
    · rw [hclose]
      refine ⟨h.ruled.put hsafe.newline_notMem, target, l.page.kept_put target, fun _ _ => ?_⟩
      exact .target hname hclosing hopened (.inl rfl)
    · rw [hclose]
      have hnot : 0x0a ∉ of "(" ++ target ++ of ")" := by
        intro hmem
        rcases List.mem_append.mp hmem with hmem | hmem
        · rcases List.mem_append.mp hmem with hmem | hmem
          · exact absurd hmem (by decide)
          · exact hsafe.newline_notMem hmem
        · exact absurd hmem (by decide)
      refine ⟨h.ruled.space.put hnot, of "(" ++ target ++ of ")", ?_, fun _ _ => ?_⟩
      · rw [l.page.space.kept_put, l.page.text_space]
      · exact .target hname hclosing hopened (.inr rfl)

theorem Layout.Sound.onTag (h : l.Sound before) (tag : ParsedTag) :
    (l.onTag tag).Sound (before ++ [.tag tag]) ∧ Adds before (.tag tag) l.page (l.onTag tag).page := by
  have hlink : ∀ link ∈ l.link, ∀ target ∈ link.target, OpenedBefore (before ++ [.tag tag]) target :=
    fun link hl target ht => (h.link link hl target ht).mono _
  unfold Layout.onTag
  split_ifs with ha hopening hli hitem
  · refine ⟨⟨h.ruled, ?_⟩, adds_tag rfl⟩
    rintro link hl target ht
    obtain rfl := Option.some.inj hl
    obtain ⟨href, hhref, htarget⟩ := Option.bind_eq_some_iff.mp ht
    rw [Bool.not_eq_true'] at hopening
    exact ⟨tag, href, by simp, ha, hopening, hhref, linkTarget_safe htarget⟩
  · rw [Bool.not_eq_true', Bool.not_eq_false] at hopening
    obtain ⟨hruled, hadds⟩ := h.closeLink ha hopening
    exact ⟨⟨hruled, fun _ hl => nomatch hl⟩, hadds⟩
  · refine ⟨⟨(h.ruled.newline false).marker, hlink⟩, of "-", ?_, fun _ _ => .item hli ?_⟩
    · show kept ((l.page.newline false).put (of "-")).text = _
      rw [Page.kept_put, l.page.text_newline]
    · simpa using hitem
  · exact ⟨⟨h.ruled.newline false, hlink⟩, adds_tag (l.page.text_newline false)⟩
  · exact ⟨⟨h.ruled.newline true, hlink⟩, adds_tag (l.page.text_newline true)⟩
  · exact ⟨⟨h.ruled.newline false, hlink⟩, adds_tag (l.page.text_newline false)⟩
  · exact ⟨⟨h.ruled.space, hlink⟩, adds_tag l.page.text_space⟩
  · exact ⟨⟨h.ruled, hlink⟩, adds_tag rfl⟩

/-- **A piece is laid out as it may be.** -/
theorem Layout.Sound.read (h : l.Sound before) (piece : Piece) :
    (l.read piece).Sound (before ++ [piece]) ∧ Adds before piece l.page (l.read piece).page := by
  have hlink : ∀ link ∈ l.link, ∀ target ∈ link.target, OpenedBefore (before ++ [piece]) target :=
    fun link hl target ht => (h.link link hl target ht).mono _
  cases piece with
  | unit c => exact ⟨⟨h.ruled.unit c, hlink⟩, [c], l.page.kept_unit c, fun _ _ => .unit⟩
  | entity text => exact ⟨⟨h.ruled.units text, hlink⟩, text, l.page.kept_units text, fun _ _ => .entity⟩
  | tag tag => exact h.onTag tag
  | hidden => exact ⟨⟨h.ruled, hlink⟩, [], (List.append_nil _).symm, fun _ _ => .hidden⟩

theorem Layout.Sound.readAll (h : l.Sound before) (pieces : List Piece) :
    (pieces.foldl Layout.read l).page.Ruled ∧ ∃ written, Written before pieces written ∧
      kept (pieces.foldl Layout.read l).page.text = kept l.page.text ++ kept written := by
  induction pieces generalizing before l with
  | nil => exact ⟨h.ruled, [], .nil, (List.append_nil _).symm⟩
  | cons piece pieces ih =>
    obtain ⟨hsound, added, hkept, hadds⟩ := h.read piece
    obtain ⟨hruled, rest, hwritten, hrest⟩ := ih hsound
    refine ⟨hruled, added ++ rest, hadds pieces rest hwritten, ?_⟩
    rw [List.foldl_cons, hrest, hkept, kept_append, List.append_assoc]

/-! ## The last pass -/

theorem isWhite_newline : isWhite 0x0a = true := rfl

theorem tidy_eq (s : CodeUnits) : tidy s = [0x0a].intercalate (keptRows isWhite 0x0a s) :=
  stripEnds_rows isWhite_newline

theorem tidy_sublist (s : CodeUnits) : (tidy s).Sublist s := by
  have hrows : ([0x0a].intercalate ((s.splitOn 0x0a).map (stripEnds isWhite))).Sublist
      ([0x0a].intercalate (s.splitOn 0x0a)) := intercalate_map_sublist (stripEnds_sublist isWhite)
  rw [List.intercalate_splitOn] at hrows
  exact (stripEnds_sublist isWhite _).trans hrows

/-- The lines of the output are the rows that are left. -/
theorem splitOn_tidy (s : CodeUnits) : (tidy s).splitOn 0x0a = keptRows isWhite 0x0a s ∨
    tidy s = [] ∧ (tidy s).splitOn 0x0a = [[]] ∧ keptRows isWhite 0x0a s = [] := by
  by_cases hne : keptRows isWhite 0x0a s = []
  · have hnil : tidy s = [] := by rw [tidy_eq, hne]; rfl
    exact .inr ⟨hnil, by rw [hnil, List.splitOn_nil], hne⟩
  · rw [tidy_eq]
    exact .inl (splitOn_keptRows hne)

theorem trim_of_mem_splitOn (s : CodeUnits) : ∀ line ∈ (tidy s).splitOn 0x0a, trim line = line := by
  intro line hline
  rcases splitOn_tidy s with h | ⟨-, h, -⟩
  · rw [h] at hline
    obtain ⟨row, -, rfl⟩ := mem_keptRows hline
    exact stripEnds_of_solid (solid_stripEnds isWhite row)
  · rw [h, List.mem_singleton] at hline
    rw [hline]
    rfl

theorem solid_splitOn (s : CodeUnits) (h : tidy s ≠ []) : Solid List.isEmpty ((tidy s).splitOn 0x0a) := by
  rcases splitOn_tidy s with hrows | ⟨hnil, -⟩
  · rw [hrows]
    exact solid_stripEnds _ _
  · exact absurd hnil h

theorem double_tidy_iff {s : CodeUnits} (h : Sparse 0x0a 0 s) :
    ¬[[], []] <:+: (tidy s).splitOn 0x0a ↔ KeptApart isWhite (s.splitOn 0x0a) := by
  rw [keptApart_iff h.empty_rows, ← double_keptRows]
  rcases splitOn_tidy s with hrows | ⟨-, hrows, hnone⟩
  · rw [hrows]
  · rw [hrows, hnone]
    exact iff_of_true (fun hwithin => by simpa using hwithin.length_le) fun hwithin => by simpa using hwithin.length_le

/-! ## The conversion -/

/-- **The conversion keeps its promises exactly when no line of white space that HTML keeps, with
visible text before and after it, stands next to an empty line or another such line.** -/
theorem htmlToText_exact (input : CodeUnits) : ∃ pieces, Lexes (boundedInput input) pieces ∧
    (∀ pieces', Lexes (boundedInput input) pieces' → pieces' = pieces) ∧
      (Converts input pieces (htmlToText input) ↔
        KeptApart isWhite ((laidOut (pieces.map Prod.snd)).splitOn 0x0a)) := by
  obtain ⟨pieces, hlexes⟩ := exists_lexes (boundedInput input)
  refine ⟨pieces, hlexes, fun pieces' h => h.unique hlexes, ?_⟩
  obtain ⟨hruled, written, hwritten, hkept⟩ := Layout.sound_new.readAll (pieces.map Prod.snd)
  obtain ⟨rest, hcut⟩ := cutText_begins ((pieces.map Prod.snd).foldl Layout.read Layout.new).page.text
  have hsparse : Sparse 0x0a 0 (laidOut (pieces.map Prod.snd)) := by
    have hall := hruled.sparse
    rw [← hcut] at hall
    exact hall.of_append
  rw [htmlToText_eq hlexes, ← double_tidy_iff hsparse]
  refine ⟨Converts.spaced, fun hspaced => ?_⟩
  refine ⟨?_, trim_of_mem_splitOn _, hspaced, solid_splitOn _, hlexes.flatten, hlexes.forward, ?_⟩
  · exact (tidy_sublist _).length_le.trans (length_cutText _)
  · refine ⟨written, _, hwritten, ?_, rfl⟩
    have hnew : kept written = kept ((pieces.map Prod.snd).foldl Layout.read Layout.new).page.text := hkept.symm
    rw [hnew, ← hcut, kept_append]
    exact List.prefix_append _ _

/-- A paragraph of a no-break space between two others leaves three empty lines. -/
theorem not_htmlToText_spaced : htmlToText (of "<p>a</p>&#160;<p>b</p>") = of "a\n\n\n\nb" ∧
    ¬∃ pieces, Converts (of "<p>a</p>&#160;<p>b</p>") pieces (htmlToText (of "<p>a</p>&#160;<p>b</p>")) := by
  have houtput : htmlToText (of "<p>a</p>&#160;<p>b</p>") = of "a\n\n\n\nb" := by decide +kernel
  refine ⟨houtput, ?_⟩
  rintro ⟨pieces, hconverts⟩
  have hspaced := hconverts.spaced
  rw [houtput] at hspaced
  exact hspaced ⟨[[0x61]], [[], [0x62]], by decide⟩

end BunMail.Emails.HtmlToText
