import BunMail.Emails.HtmlPieces
import BunMail.Lib.Rows

/-!
# The page the pieces are laid out on

A page without an end, on which the pieces of a text are laid out: its text, what it owes before the
next word, and the link that is open.  The collector shows the page up to its own limit.
-/

namespace BunMail.Emails.HtmlToText

open CodeUnits

/-! ## The page -/

/-- What a page owes before the next word. -/
inductive Owed
  | nothing
  | space
  | line
  | blank
  deriving DecidableEq

def Owed.newlines : Owed → ℕ
  | nothing => 0
  | space => 0
  | line => 1
  | blank => 2

def Owed.units (owed : Owed) : CodeUnits :=
  if owed = .space then [0x20] else List.replicate owed.newlines 0x0a

structure Page where
  text : CodeUnits
  owed : Owed
  deriving DecidableEq

namespace Page

def new : Page := { text := [], owed := .nothing }

/-- A word, after what is owed. -/
def put (page : Page) (value : CodeUnits) : Page :=
  if value = [] then page else { text := page.text ++ (page.owed.units ++ value), owed := .nothing }

/-- A space, within a line. -/
def space (page : Page) : Page :=
  if page.text ≠ [] ∧ page.owed = .nothing then { page with owed := .space } else page

/-- The end of the line, or of the paragraph. -/
def newline (page : Page) (blank : Bool) : Page :=
  if page.text = [] then page
  else { page with owed := if blank ∨ page.owed = .blank then .blank else .line }

/-- A unit of text. -/
def unit (page : Page) (c : UInt16) : Page := if isSpace c then page.space else page.put [c]

def units (page : Page) (value : CodeUnits) : Page := value.foldl unit page

/-- A list marker. -/
def marker (page : Page) (value : CodeUnits) : Page := { page.put value with owed := .space }

/-- The end of a link, which began where the text had so many units. -/
def closeLink (page : Page) (link : OpenLink) : Page :=
  link.target.elim page fun target =>
    let text := trim (page.text.drop link.mark)
    if page.text.length ≤ link.mark then page.put target
    else if text ≠ target ∧ text ≠ bareTarget target then page.space.put (of "(" ++ target ++ of ")")
    else page

end Page

/-- The page and the open link. -/
structure Layout where
  page : Page
  link : Option OpenLink
  deriving DecidableEq

namespace Layout

def new : Layout := { page := Page.new, link := none }

def onTag (l : Layout) (tag : ParsedTag) : Layout :=
  if tag.name = of "a" then
    if !tag.closing then
      { l with link := some { mark := l.page.text.length, target := tag.href.bind linkTarget } }
    else { page := l.link.elim l.page l.page.closeLink, link := none }
  else if tag.name = of "li" then
    if !tag.closing then { l with page := (l.page.newline false).marker (of "-") }
    else { l with page := l.page.newline false }
  else if tag.name ∈ PARAGRAPH_ELEMENTS then { l with page := l.page.newline true }
  else if tag.name ∈ LINE_BREAK_ELEMENTS then { l with page := l.page.newline false }
  else if tag.name ∈ CELL_ELEMENTS then { l with page := l.page.space }
  else l

def read (l : Layout) : Piece → Layout
  | .unit c => { l with page := l.page.unit c }
  | .entity text => { l with page := l.page.units text }
  | .tag tag => l.onTag tag
  | .hidden => l

end Layout

/-- What fits in the output. -/
def cutText (s : CodeUnits) : CodeUnits :=
  if MAX_TEXT_OUTPUT_LENGTH ≤ s.length then sliceWhole MAX_TEXT_OUTPUT_LENGTH s else s

/-- The text of the pieces as it is laid out, before anything is trimmed. -/
def laidOut (pieces : List Piece) : CodeUnits := cutText (pieces.foldl Layout.read Layout.new).page.text

/-! ## The cut -/

variable {s t value : CodeUnits} {n : ℕ} {page : Page} {sink : TextSink}

theorem sliceWhole_begins (n : ℕ) (s : CodeUnits) : sliceWhole n s <+: s := by
  unfold sliceWhole
  split_ifs <;> exact List.take_prefix _ _

theorem length_sliceWhole (n : ℕ) (s : CodeUnits) : (sliceWhole n s).length ≤ n := by
  unfold sliceWhole
  split_ifs <;> rw [List.length_take] <;> omega

theorem sliceWhole_append (h : n ≤ s.length) : sliceWhole n (s ++ t) = sliceWhole n s := by
  unfold sliceWhole
  rw [List.take_append_of_le_length h, List.take_append_of_le_length (Nat.le_trans (Nat.sub_le n 1) h)]

theorem sliceWhole_add (hn : 0 < n) (ht : n ≤ t.length) :
    sliceWhole (s.length + n) (s ++ t) = s ++ sliceWhole n t := by
  have hsub : s.length + n - 1 = s.length + (n - 1) := by omega
  have hne : t.take n ≠ [] := by
    rw [ne_eq, List.take_eq_nil_iff]
    rintro (rfl | rfl)
    · exact lt_irrefl 0 hn
    · exact absurd ht (Nat.not_le.mpr hn)
  have hlast : (s ++ t.take n).getLast? = (t.take n).getLast? := by
    obtain ⟨x, rest, hx⟩ := List.exists_cons_of_ne_nil hne
    rw [hx, List.getLast?_append, List.getLast?_cons]
    rfl
  unfold sliceWhole
  rw [List.take_length_add_append, hsub, List.take_length_add_append, hlast]
  split_ifs <;> rfl

theorem cutText_begins (s : CodeUnits) : cutText s <+: s := by
  unfold cutText
  split_ifs
  · exact sliceWhole_begins _ s
  · exact List.prefix_rfl

theorem length_cutText (s : CodeUnits) : (cutText s).length ≤ MAX_TEXT_OUTPUT_LENGTH := by
  unfold cutText
  split_ifs with h
  · exact length_sliceWhole _ s
  · exact (not_le.mp h).le

/-- Text past the limit changes nothing. -/
theorem cutText_append (h : MAX_TEXT_OUTPUT_LENGTH ≤ s.length) : cutText (s ++ t) = cutText s := by
  have hle : MAX_TEXT_OUTPUT_LENGTH ≤ (s ++ t).length := by
    rw [List.length_append]
    exact Nat.le_add_right_of_le h
  unfold cutText
  rw [if_pos h, if_pos hle, sliceWhole_append h]

/-! ## The collector shows the page -/

/-- A collector that has not come to its limit. -/
structure Live (sink : TextSink) (page : Page) : Prop where
  length : sink.length = page.text.length
  newlines : sink.pendingNewlines = page.owed.newlines
  space : sink.pendingSpace = decide (page.owed = .space)
  line : sink.lineHasText = decide (page.text ≠ [] ∧ page.owed.newlines = 0)
  chunks : ∀ chunk ∈ sink.chunks, chunk ≠ []
  begun : page.text = [] → page.owed = .nothing

/-- The collector holds what fits of the text of the page. -/
structure Shows (sink : TextSink) (page : Page) : Prop where
  text : sink.chunks.flatten = cutText page.text
  full : sink.full = decide (MAX_TEXT_OUTPUT_LENGTH ≤ page.text.length)
  live : page.text.length < MAX_TEXT_OUTPUT_LENGTH → Live sink page

theorem Shows.lt_of_not_full (h : Shows sink page) (hfull : sink.full = false) :
    page.text.length < MAX_TEXT_OUTPUT_LENGTH := by
  rw [h.full] at hfull
  exact not_le.mp (of_decide_eq_false hfull)

/-- A full collector stays as it is, whatever goes on the page. -/
theorem Shows.grow {sink' : TextSink} {page' : Page} (h : Shows sink page) (hfull : sink.full = true)
    (hchunks : sink'.chunks = sink.chunks) (hfull' : sink'.full = sink.full)
    (hbegins : page.text <+: page'.text) : Shows sink' page' := by
  rw [h.full] at hfull
  have hle := of_decide_eq_true hfull
  obtain ⟨rest, hrest⟩ := hbegins
  have hle' : MAX_TEXT_OUTPUT_LENGTH ≤ page'.text.length := by
    rw [← hrest, List.length_append]
    exact Nat.le_add_right_of_le hle
  refine ⟨?_, ?_, fun hlt => absurd hle' (not_le.mpr hlt)⟩
  · rw [hchunks, h.text, ← hrest, cutText_append hle]
  · rw [hfull', h.full, decide_eq_true hle, decide_eq_true hle']

theorem text_prefix_put (page : Page) (value : CodeUnits) : page.text <+: (page.put value).text := by
  unfold Page.put
  split_ifs
  · exact List.prefix_rfl
  · exact List.prefix_append _ _

theorem Shows.text_eq (h : Shows sink page) (hlt : page.text.length < MAX_TEXT_OUTPUT_LENGTH) :
    sink.chunks.flatten = page.text := by
  rw [h.text, cutText, if_neg (not_le.mpr hlt)]

theorem Live.owed (h : Live sink page) : sink.owed = page.owed.units := by
  have htext : page.owed ≠ .nothing → 0 < page.text.length := fun hne =>
    List.length_pos_iff.mpr fun hnil => hne (h.begun hnil)
  unfold TextSink.owed Owed.units
  rw [h.newlines, h.length, h.space, h.line]
  cases howed : page.owed with
  | nothing => rfl
  | space =>
    rw [howed] at htext
    have hne := List.length_pos_iff.mp (htext (by decide))
    simp [Owed.newlines, hne]
  | line =>
    rw [howed] at htext
    exact if_pos ⟨Nat.one_pos, htext (by decide)⟩
  | blank =>
    rw [howed] at htext
    exact if_pos ⟨Nat.two_pos, htext (by decide)⟩

theorem shows_new : Shows TextSink.new Page.new := by
  refine ⟨rfl, rfl, fun _ => ⟨rfl, rfl, rfl, rfl, fun chunk hc => absurd hc List.not_mem_nil, fun _ => rfl⟩⟩

/-- **A word goes on the page as it goes into the collector.** -/
theorem Shows.word (h : Shows sink page) (value : CodeUnits) : Shows (sink.word value) (page.put value) := by
  by_cases hvalue : value = []
  · unfold TextSink.word Page.put
    rw [if_pos (.inl hvalue), if_pos hvalue]
    exact h
  cases hfull : sink.full with
  | true =>
    have hword : sink.word value = sink := if_pos (.inr hfull)
    rw [hword]
    exact h.grow hfull rfl rfl (text_prefix_put page value)
  | false =>
    have hlt := h.lt_of_not_full hfull
    have hlive := h.live hlt
    have hnot : ¬(value = [] ∨ sink.full = true) := by simp [hvalue, hfull]
    unfold TextSink.word Page.put TextSink.push
    rw [if_neg hnot, if_neg hvalue, hlive.owed]
    dsimp only
    rw [hlive.length]
    generalize hw : page.owed.units ++ value = w
    have hroom : page.text.length + (MAX_TEXT_OUTPUT_LENGTH - page.text.length) = MAX_TEXT_OUTPUT_LENGTH :=
      Nat.add_sub_of_le hlt.le
    by_cases hle : MAX_TEXT_OUTPUT_LENGTH - page.text.length ≤ w.length
    · rw [if_pos hle]
      have hpast : MAX_TEXT_OUTPUT_LENGTH ≤ (page.text ++ w).length := by
        rw [List.length_append]
        omega
      refine ⟨?_, (decide_eq_true hpast).symm, fun hlt' => absurd hpast (not_le.mpr hlt')⟩
      have hcut := sliceWhole_add (s := page.text) (Nat.sub_pos_of_lt hlt) hle
      rw [hroom] at hcut
      show (sink.chunks ++ [_]).flatten = cutText (page.text ++ w)
      rw [List.flatten_append, h.text_eq hlt, cutText, if_pos hpast, hcut]
      simp
    · rw [if_neg hle]
      have hshort : (page.text ++ w).length < MAX_TEXT_OUTPUT_LENGTH := by
        rw [List.length_append]
        omega
      have hw' : w ≠ [] := by
        rw [← hw]
        exact List.append_ne_nil_of_right_ne_nil _ hvalue
      refine ⟨?_, ?_, fun _ => ⟨?_, rfl, rfl, ?_, fun chunk hc => ?_, fun _ => rfl⟩⟩
      · show (sink.chunks ++ [w]).flatten = cutText (page.text ++ w)
        rw [List.flatten_append, h.text_eq hlt, cutText, if_neg (not_le.mpr hshort)]
        simp
      · exact hfull.trans (decide_eq_false (not_le.mpr hshort)).symm
      · exact (List.length_append).symm
      · have hne : page.text ++ w ≠ [] := List.append_ne_nil_of_right_ne_nil _ hw'
        simp [hne, Owed.newlines]
      · rcases List.mem_append.mp hc with hc | hc
        · exact hlive.chunks chunk hc
        · rw [List.mem_singleton.mp hc]
          exact hw'

/-- What changes only what is owed. -/
theorem Shows.owe {sink' : TextSink} {page' : Page} (h : Shows sink page)
    (hchunks : sink'.chunks = sink.chunks) (hfull : sink'.full = sink.full) (htext : page'.text = page.text)
    (hlive : Live sink page → Live sink' page') : Shows sink' page' := by
  refine ⟨?_, ?_, fun hlt => hlive (h.live (htext ▸ hlt))⟩
  · rw [hchunks, htext, h.text]
  · rw [hfull, htext, h.full]

theorem space_frame (sink : TextSink) : sink.space.chunks = sink.chunks ∧ sink.space.full = sink.full ∧
    sink.space.length = sink.length ∧ sink.space.pendingNewlines = sink.pendingNewlines ∧
      sink.space.lineHasText = sink.lineHasText := by
  unfold TextSink.space
  split_ifs <;> exact ⟨rfl, rfl, rfl, rfl, rfl⟩

theorem newline_frame (sink : TextSink) (blank : Bool) : (sink.newline blank).chunks = sink.chunks ∧
    (sink.newline blank).full = sink.full ∧ (sink.newline blank).length = sink.length := by
  unfold TextSink.newline
  split_ifs <;> exact ⟨rfl, rfl, rfl⟩

theorem Page.text_space (page : Page) : page.space.text = page.text := by
  unfold Page.space
  split_ifs <;> rfl

theorem Page.text_newline (page : Page) (blank : Bool) : (page.newline blank).text = page.text := by
  unfold Page.newline
  split_ifs <;> rfl

theorem Live.space_step (h : Live sink page) : Live sink.space page.space := by
  have hline := h.line
  unfold TextSink.space Page.space
  by_cases htext : page.text = []
  · rw [if_neg (by rw [hline]; simp [htext]), if_neg (by simp [htext])]
    exact h
  cases howed : page.owed with
  | nothing =>
    rw [if_pos (by rw [hline, howed]; simp [htext, Owed.newlines]), if_pos ⟨htext, rfl⟩]
    refine ⟨h.length, ?_, rfl, ?_, h.chunks, fun hnil => absurd hnil htext⟩
    · exact h.newlines.trans (by rw [howed]; rfl)
    · exact h.line.trans (by rw [howed]; rfl)
  | space =>
    rw [if_pos (by rw [hline, howed]; simp [htext, Owed.newlines]), if_neg (by simp)]
    refine ⟨h.length, h.newlines, ?_, h.line, h.chunks, h.begun⟩
    rw [howed]
    rfl
  | line =>
    rw [if_neg (by rw [hline, howed]; simp [Owed.newlines]), if_neg (by simp)]
    exact h
  | blank =>
    rw [if_neg (by rw [hline, howed]; simp [Owed.newlines]), if_neg (by simp)]
    exact h

theorem Shows.space (h : Shows sink page) : Shows sink.space page.space :=
  h.owe (space_frame sink).1 (space_frame sink).2.1 page.text_space Live.space_step

theorem Live.newline_step (h : Live sink page) (blank : Bool) :
    Live (sink.newline blank) (page.newline blank) := by
  unfold TextSink.newline Page.newline
  by_cases htext : page.text = []
  · rw [if_pos (by rw [h.length, htext]; rfl), if_pos htext]
    exact h
  · rw [if_neg (by rw [h.length]; exact fun hzero => htext (List.eq_nil_of_length_eq_zero hzero)), if_neg htext]
    refine ⟨h.length, ?_, ?_, ?_, h.chunks, fun hnil => absurd hnil htext⟩
    · dsimp only
      rw [h.newlines]
      cases blank <;> cases page.owed <;> rfl
    · cases blank <;> cases page.owed <;> rfl
    · cases blank <;> cases page.owed <;> simp [Owed.newlines]

theorem Shows.newline (h : Shows sink page) (blank : Bool) : Shows (sink.newline blank) (page.newline blank) :=
  h.owe (newline_frame sink blank).1 (newline_frame sink blank).2.1 (page.text_newline blank)
    fun hlive => hlive.newline_step blank

theorem Shows.marker (h : Shows sink page) (hne : value ≠ []) : Shows (sink.marker value) (page.marker value) := by
  refine (h.word value).owe rfl rfl rfl fun hlive => ?_
  have hput : page.put value = { text := page.text ++ (page.owed.units ++ value), owed := .nothing } :=
    if_neg hne
  have htext : (page.put value).text ≠ [] := by
    rw [hput]
    exact List.append_ne_nil_of_right_ne_nil _ (List.append_ne_nil_of_right_ne_nil _ hne)
  refine ⟨hlive.length, ?_, rfl, ?_, hlive.chunks, fun hnil => absurd hnil htext⟩
  · exact hlive.newlines.trans (by rw [hput]; rfl)
  · exact hlive.line.trans (by unfold Page.marker; rw [hput]; rfl)

/-- A run of text, with the word begun. -/
def Begun (state : TextSink × CodeUnits) (page : Page) : Prop :=
  (∃ page', Shows state.1 page' ∧ page = page'.put state.2) ∨ (state.1.full = true ∧ Shows state.1 page)

theorem Begun.word {state : TextSink × CodeUnits} (h : Begun state page) : Shows (state.1.word state.2) page := by
  rcases h with ⟨page', hshows, rfl⟩ | ⟨hfull, hshows⟩
  · exact hshows.word state.2
  · have hword : state.1.word state.2 = state.1 := if_pos (.inr hfull)
    rw [hword]
    exact hshows

theorem Page.put_put (page : Page) (value : CodeUnits) (c : UInt16) :
    (page.put value).put [c] = page.put (value ++ [c]) := by
  unfold Page.put
  by_cases hvalue : value = []
  · subst hvalue
    rfl
  · rw [if_neg hvalue, if_neg (List.cons_ne_nil c []), if_neg (List.append_ne_nil_of_left_ne_nil hvalue _)]
    simp [Owed.units, Owed.newlines]

theorem Page.text_prefix_unit (page : Page) (c : UInt16) : page.text <+: (page.unit c).text := by
  unfold Page.unit
  split_ifs
  · rw [page.text_space]
  · exact text_prefix_put page [c]

theorem Begun.turn {state : TextSink × CodeUnits} (h : Begun state page) (c : UInt16) :
    Begun (TextSink.textTurn state c) (page.unit c) := by
  unfold TextSink.textTurn
  cases hfull : state.1.full with
  | true =>
    have hword : state.1.word state.2 = state.1 := if_pos (.inr hfull)
    have hshows := h.word
    rw [hword] at hshows
    rw [if_pos rfl]
    exact .inr ⟨hfull, hshows.grow hfull rfl rfl (page.text_prefix_unit c)⟩
  | false =>
    rw [if_neg Bool.false_ne_true]
    rcases h with ⟨page', hshows, rfl⟩ | ⟨hfull', -⟩
    · unfold Page.unit
      split_ifs with hspace
      · exact .inl ⟨_, (hshows.word state.2).space, rfl⟩
      · exact .inl ⟨page', hshows, page'.put_put state.2 c⟩
    · rw [hfull] at hfull'
      cases hfull'

theorem Shows.units (h : Shows sink page) (value : CodeUnits) : Shows (sink.text value) (page.units value) := by
  have hbegun : ∀ (value : CodeUnits) (state : TextSink × CodeUnits) (page : Page), Begun state page →
      Begun (value.foldl TextSink.textTurn state) (page.units value) := by
    intro value
    induction value with
    | nil => exact fun _ _ h => h
    | cons c value ih => exact fun state page h => ih _ _ (h.turn c)
  exact (hbegun value (sink, []) page (.inl ⟨page, h, rfl⟩)).word

/-! ## Chunks are only added -/

theorem chunks_word (sink : TextSink) (value : CodeUnits) : sink.chunks <+: (sink.word value).chunks := by
  unfold TextSink.word TextSink.push
  dsimp only
  split_ifs
  · exact List.prefix_rfl
  · exact List.prefix_append _ _
  · exact List.prefix_append _ _

theorem chunks_textTurn (state : TextSink × CodeUnits) (c : UInt16) :
    state.1.chunks <+: (TextSink.textTurn state c).1.chunks := by
  unfold TextSink.textTurn
  split_ifs
  · exact List.prefix_rfl
  · rw [(space_frame _).1]
    exact chunks_word state.1 state.2
  · exact List.prefix_rfl

theorem chunks_text (sink : TextSink) (value : CodeUnits) : sink.chunks <+: (sink.text value).chunks := by
  have hfold : ∀ (value : CodeUnits) (state : TextSink × CodeUnits),
      state.1.chunks <+: (value.foldl TextSink.textTurn state).1.chunks := by
    intro value
    induction value with
    | nil => exact fun _ => List.prefix_rfl
    | cons c value ih => exact fun state => (chunks_textTurn state c).trans (ih _)
  exact (hfold value (sink, [])).trans (chunks_word _ _)

theorem word_full (hfull : sink.full = true) (value : CodeUnits) : sink.word value = sink := if_pos (.inr hfull)

theorem text_full (hfull : sink.full = true) (value : CodeUnits) : sink.text value = sink := by
  have hfold : ∀ word, value.foldl TextSink.textTurn (sink, word) = (sink, word) := by
    intro word
    induction value with
    | nil => rfl
    | cons c value ih =>
      have hturn : TextSink.textTurn (sink, word) c = (sink, word) := if_pos hfull
      rw [List.foldl_cons, hturn, ih]
  unfold TextSink.text
  rw [hfold]
  exact word_full hfull []

/-! ## The loop lays out the page -/

/-- One link, by the chunks before it and by the text before it. -/
structure SameLink (sink : TextSink) (a b : OpenLink) : Prop where
  target : b.target = a.target
  mark : b.mark = (sink.chunks.take a.mark).flatten.length
  begun : a.mark ≤ sink.chunks.length

theorem SameLink.mono {sink' : TextSink} {a b : OpenLink} (h : SameLink sink a b)
    (hchunks : sink.chunks <+: sink'.chunks) : SameLink sink' a b := by
  obtain ⟨added, hadded⟩ := hchunks
  refine ⟨h.target, ?_, ?_⟩
  · rw [← hadded, List.take_append_of_le_length h.begun]
    exact h.mark
  · rw [← hadded, List.length_append]
    exact Nat.le_add_right_of_le h.begun

theorem SameLink.since {a b : OpenLink} (h : SameLink sink a b) (hshows : Shows sink page)
    (hlt : page.text.length < MAX_TEXT_OUTPUT_LENGTH) :
    sink.since a.mark = page.text.drop b.mark := by
  have hsplit : sink.chunks.flatten = (sink.chunks.take a.mark).flatten ++ sink.since a.mark := by
    unfold TextSink.since
    rw [← List.flatten_append, List.take_append_drop]
  rw [← hshows.text_eq hlt, hsplit, h.mark, List.drop_left]

theorem SameLink.wroteSince {a b : OpenLink} (h : SameLink sink a b) (hshows : Shows sink page)
    (hlt : page.text.length < MAX_TEXT_OUTPUT_LENGTH) :
    sink.wroteSince a.mark = true ↔ b.mark < page.text.length := by
  have hsince := h.since hshows hlt
  have hdrop : page.text.drop b.mark ≠ [] ↔ b.mark < page.text.length := by
    rw [ne_eq, List.drop_eq_nil_iff, not_le]
  rw [← hdrop, ← hsince]
  unfold TextSink.wroteSince TextSink.since
  rw [decide_eq_true_iff, ne_eq, List.flatten_eq_nil_iff, not_forall]
  constructor
  · intro hlt'
    obtain ⟨chunk, rest, hcons⟩ := List.exists_cons_of_ne_nil (l := sink.chunks.drop a.mark)
      (by rw [ne_eq, List.drop_eq_nil_iff, not_le]; exact hlt')
    have hmem : chunk ∈ sink.chunks.drop a.mark := by rw [hcons]; exact List.mem_cons_self
    exact ⟨chunk, fun h => (hshows.live hlt).chunks chunk (List.mem_of_mem_drop hmem) (h hmem)⟩
  · rintro ⟨chunk, hchunk⟩
    rw [Classical.not_imp] at hchunk
    by_contra hle
    rw [List.drop_eq_nil_of_le (not_lt.mp hle)] at hchunk
    exact List.not_mem_nil hchunk.1

theorem text_prefix_closeLink (page : Page) (link : OpenLink) : page.text <+: (page.closeLink link).text := by
  unfold Page.closeLink
  cases link.target with
  | none => exact List.prefix_rfl
  | some target =>
    dsimp only [Option.elim_some]
    split_ifs
    · exact text_prefix_put page target
    · have hspace := text_prefix_put page.space (of "(" ++ target ++ of ")")
      rwa [page.text_space] at hspace
    · exact List.prefix_rfl

theorem closeLink_full (hfull : sink.full = true) (a : OpenLink) :
    (State.closeLink sink a).chunks = sink.chunks ∧ (State.closeLink sink a).full = sink.full := by
  unfold State.closeLink TextSink.literal
  cases a.target with
  | none => exact ⟨rfl, rfl⟩
  | some target =>
    dsimp only [Option.elim_some]
    rw [word_full hfull, word_full ((space_frame sink).2.1.trans hfull)]
    split_ifs
    · exact ⟨rfl, rfl⟩
    · exact ⟨(space_frame sink).1, (space_frame sink).2.1⟩
    · exact ⟨rfl, rfl⟩

/-- The end of a link writes the same on the page and into the collector. -/
theorem Shows.closeLink {a b : OpenLink} (h : Shows sink page) (hlink : SameLink sink a b) :
    Shows (State.closeLink sink a) (page.closeLink b) := by
  cases hfull : sink.full with
  | true =>
    have hframe := closeLink_full hfull a
    exact h.grow hfull hframe.1 hframe.2 (text_prefix_closeLink page b)
  | false =>
    have hlt := h.lt_of_not_full hfull
    have hsince := hlink.since h hlt
    have hwrote := hlink.wroteSince h hlt
    unfold State.closeLink Page.closeLink
    rw [hlink.target]
    cases a.target with
    | none => exact h
    | some target =>
      dsimp only [Option.elim_some]
      rw [hsince]
      by_cases hmark : b.mark < page.text.length
      · rw [hwrote.mpr hmark, if_neg (by decide), if_neg (not_le.mpr hmark)]
        split_ifs
        · exact h.space.word _
        · exact h
      · rw [Bool.eq_false_iff.mpr fun hw => hmark (hwrote.mp hw), if_pos (by decide), if_pos (not_lt.mp hmark)]
        exact h.word target

/-- The collector and the layout agree, with nothing left to write. -/
structure Flushed (st : State) (l : Layout) : Prop where
  shows' : Shows st.sink l.page
  run : st.run = []
  link : st.sink.full = true ∨ Option.Rel (SameLink st.sink) st.link l.link

/-- The collector and the layout agree, but for the text run not yet written. -/
def Follows (st : State) (l : Layout) : Prop :=
  ∃ l', Flushed { st with run := [] } l' ∧ l = { l' with page := l'.page.units st.run }

theorem link_mono {st st' : State} {l : Layout} (hchunks : st.sink.chunks <+: st'.sink.chunks)
    (hlink : st'.link = st.link) (h : Option.Rel (SameLink st.sink) st.link l.link) :
    Option.Rel (SameLink st'.sink) st'.link l.link := by
  rw [hlink]
  generalize st.link = a at h ⊢
  generalize l.link = b at h ⊢
  cases h with
  | none => exact .none
  | some h => exact .some (h.mono hchunks)

/-- What keeps the link. -/
theorem Flushed.step {st : State} {l : Layout} {sink' : TextSink} {page' : Page} (h : Flushed st l)
    (hshows : Shows sink' page') (hchunks : st.sink.chunks <+: sink'.chunks)
    (hfull : st.sink.full = true → sink'.full = true) :
    Flushed { st with sink := sink' } { l with page := page' } :=
  ⟨hshows, h.run, h.link.imp hfull (@link_mono _ { st with sink := sink' } _ hchunks rfl)⟩

theorem Flushed.units {st : State} {l : Layout} (h : Flushed st l) (value : CodeUnits) :
    Flushed { st with sink := st.sink.text value } { l with page := l.page.units value } := by
  refine h.step (h.shows'.units value) (chunks_text st.sink value) fun hfull => ?_
  rw [text_full hfull]
  exact hfull

theorem Follows.flush {st : State} {l : Layout} (h : Follows st l) : Flushed st.flush l := by
  obtain ⟨l', hflushed, rfl⟩ := h
  exact hflushed.units st.run

theorem Flushed.follows {st : State} {l : Layout} (h : Flushed st l) : Follows st l := by
  refine ⟨l, ?_, ?_⟩
  · have hrun := h.run
    rw [← hrun]
    exact h
  · rw [h.run]
    rfl

theorem Follows.keep {st : State} {l : Layout} (h : Follows st l) (c : UInt16) :
    Follows { st with run := st.run ++ [c] } { l with page := l.page.unit c } := by
  obtain ⟨l', hflushed, rfl⟩ := h
  refine ⟨l', hflushed, ?_⟩
  simp [Page.units]

theorem Flushed.newline {st : State} {l : Layout} (h : Flushed st l) (blank : Bool) :
    Flushed { st with sink := st.sink.newline blank } { l with page := l.page.newline blank } := by
  obtain ⟨hchunks, hfull, -⟩ := newline_frame st.sink blank
  exact h.step (h.shows'.newline blank) (hchunks ▸ List.prefix_rfl) fun h => hfull.trans h

theorem Flushed.onLink {st : State} {l : Layout} (h : Flushed st l) (target : Option CodeUnits) :
    Flushed { st with link := some { mark := st.sink.mark, target } }
      { l with link := some { mark := l.page.text.length, target } } := by
  refine ⟨h.shows', h.run, ?_⟩
  cases hfull : st.sink.full with
  | true => exact .inl rfl
  | false =>
    refine .inr (.some ⟨rfl, ?_, le_rfl⟩)
    show l.page.text.length = (st.sink.chunks.take st.sink.chunks.length).flatten.length
    rw [List.take_length, h.shows'.text_eq (h.shows'.lt_of_not_full hfull)]

theorem Flushed.closeLink {st : State} {l : Layout} (h : Flushed st l) :
    Flushed { st with sink := st.link.elim st.sink (State.closeLink st.sink), link := none }
      { page := l.link.elim l.page l.page.closeLink, link := none } := by
  refine ⟨?_, h.run, .inr .none⟩
  rcases h.link with hfull | hlink
  · have hframe : (st.link.elim st.sink (State.closeLink st.sink)).chunks = st.sink.chunks ∧
        (st.link.elim st.sink (State.closeLink st.sink)).full = st.sink.full := by
      cases st.link with
      | none => exact ⟨rfl, rfl⟩
      | some a => exact closeLink_full hfull a
    have hbegins : l.page.text <+: (l.link.elim l.page l.page.closeLink).text := by
      cases l.link with
      | none => exact List.prefix_rfl
      | some b => exact text_prefix_closeLink l.page b
    exact h.shows'.grow hfull hframe.1 hframe.2 hbegins
  · dsimp only
    generalize st.link = a at hlink ⊢
    generalize l.link = b at hlink ⊢
    cases hlink with
    | none => exact h.shows'
    | some hlink => exact h.shows'.closeLink hlink

theorem Flushed.onTag {st : State} {l : Layout} (h : Flushed st l) (tag : ParsedTag) :
    Flushed (st.onTag tag) (l.onTag tag) := by
  unfold State.onTag Layout.onTag
  split_ifs
  · exact h.onLink _
  · exact h.closeLink
  · refine (h.newline false).step ((h.newline false).shows'.marker (by decide)) (chunks_word _ _) fun hfull => ?_
    exact (congrArg TextSink.full (word_full hfull (of "-"))).trans hfull
  · exact h.newline false
  · exact h.newline true
  · exact h.newline false
  · obtain ⟨hchunks, hfull, -⟩ := space_frame st.sink
    exact h.step h.shows'.space (hchunks ▸ List.prefix_rfl) fun h => hfull.trans h
  · exact h

theorem Follows.read {st : State} {l : Layout} (h : Follows st l) (piece : Piece) :
    Follows (st.read piece) (l.read piece) := by
  cases piece with
  | unit c =>
    by_cases hamp : c = 0x26
    · have hread : st.read (.unit c) = { st.flush with sink := st.flush.sink.text [c] } := if_pos hamp
      rw [hread]
      exact (h.flush.units [c]).follows
    · have hread : st.read (.unit c) = { st with run := st.run ++ [c] } := if_neg hamp
      rw [hread]
      exact h.keep c
  | entity text => exact (h.flush.units text).follows
  | tag tag => exact (h.flush.onTag tag).follows
  | hidden => exact h.flush.follows

theorem text_prefix_units (page : Page) (value : CodeUnits) : page.text <+: (page.units value).text := by
  induction value generalizing page with
  | nil => exact List.prefix_rfl
  | cons c value ih => exact (page.text_prefix_unit c).trans (ih _)

theorem text_prefix_onTag (l : Layout) (tag : ParsedTag) : l.page.text <+: (l.onTag tag).page.text := by
  unfold Layout.onTag
  split_ifs
  · exact List.prefix_rfl
  · cases l.link with
    | none => exact List.prefix_rfl
    | some link => exact text_prefix_closeLink l.page link
  · have hput := text_prefix_put (l.page.newline false) (of "-")
    rwa [l.page.text_newline] at hput
  · exact l.page.text_newline false ▸ List.prefix_rfl
  · exact l.page.text_newline true ▸ List.prefix_rfl
  · exact l.page.text_newline false ▸ List.prefix_rfl
  · exact l.page.text_space ▸ List.prefix_rfl
  · exact List.prefix_rfl

theorem text_prefix_readAll (l : Layout) (pieces : List Piece) :
    l.page.text <+: (pieces.foldl Layout.read l).page.text := by
  induction pieces generalizing l with
  | nil => exact List.prefix_rfl
  | cons piece pieces ih =>
    refine List.IsPrefix.trans ?_ (ih _)
    cases piece with
    | unit c => exact l.page.text_prefix_unit c
    | entity text => exact text_prefix_units l.page text
    | tag tag => exact text_prefix_onTag l tag
    | hidden => exact List.prefix_rfl

theorem Follows.shows' {st : State} {l : Layout} (h : Follows st l) :
    Shows (if st.sink.full then st.sink else st.flush.sink) l.page := by
  have hshows := h.flush.shows'
  cases hfull : st.sink.full with
  | true =>
    have hflush : st.flush.sink = st.sink := text_full hfull st.run
    rw [if_pos rfl, ← hflush]
    exact hshows
  | false => exact hshows

theorem Follows.readAll {st : State} {l : Layout} (h : Follows st l) (pieces : List Piece) :
    Shows (if (st.readAll pieces).sink.full then (st.readAll pieces).sink
      else (st.readAll pieces).flush.sink) (pieces.foldl Layout.read l).page := by
  induction pieces generalizing st l with
  | nil => exact h.shows'
  | cons piece pieces ih =>
    cases hfull : st.sink.full with
    | true =>
      have hshows := h.shows'
      rw [State.readAll_full hfull, hfull, if_pos rfl]
      rw [hfull, if_pos rfl] at hshows
      exact hshows.grow hfull rfl rfl (text_prefix_readAll l (piece :: pieces))
    | false =>
      have hstep : st.readAll (piece :: pieces) = (st.read piece).readAll pieces := by
        unfold State.readAll
        rw [List.foldl_cons, if_neg (by rw [hfull]; decide)]
      rw [hstep]
      exact ih (h.read piece)

/-- **The text of an input is its pieces, laid out and trimmed.** -/
theorem htmlToText_eq {input : CodeUnits} {pieces : List (CodeUnits × Piece)}
    (h : Lexes (boundedInput input) pieces) : htmlToText input = tidy (laidOut (pieces.map Prod.snd)) := by
  have hnew : Follows State.new Layout.new := Flushed.follows ⟨shows_new, rfl, .inr .none⟩
  unfold htmlToText laidOut TextSink.toString
  rw [walk_lexes h]
  dsimp only
  rw [(hnew.readAll (pieces.map Prod.snd)).text]

end BunMail.Emails.HtmlToText
