import BunMail.Inbound.DkimBody

/-!
# Canonical header fields

Every line break in a field of a message is followed by white space, and there is no other line feed.
On such fields the canonical form comes out, but for a name with a bare carriage return at an end, or
with white space before it, which is dropped as white space around the colon is.
-/

namespace BunMail.Inbound.DkimCanonical

open CodeUnits Lines

variable {u : UInt16} {l s t raw n : CodeUnits}

/-! ## Line feeds -/

/-- No line feed without its carriage return. -/
def Paired (s : CodeUnits) : Prop := ∀ a b, s = a ++ 0x0a :: b → a.getLast? = some 0x0d

theorem paired_nil : Paired [] := by
  intro a b h
  exact absurd h.symm (by simp)

theorem Paired.cons (hs : Paired s) (hu : u ≠ 0x0a) : Paired (u :: s) := by
  intro a b h
  cases a with
  | nil => exact absurd (List.cons.inj h).1 hu
  | cons v a =>
    have hlast := hs a b (List.cons.inj h).2
    obtain ⟨w, rest, rfl⟩ := List.exists_cons_of_ne_nil (l := a) (by rintro rfl; simp at hlast)
    rw [List.getLast?_cons_cons]
    exact hlast

theorem Paired.break (hs : Paired s) : Paired (crlf ++ s) := by
  intro a b h
  cases a with
  | nil => exact absurd (List.cons.inj h).1 (by decide)
  | cons v a =>
    obtain ⟨hv, htail⟩ := List.cons.inj h
    cases a with
    | nil => rw [← hv]; rfl
    | cons w a =>
      have hlast := hs a b (List.cons.inj htail).2
      obtain ⟨x, rest, rfl⟩ := List.exists_cons_of_ne_nil (l := a) (by rintro rfl; simp at hlast)
      rw [List.getLast?_cons_cons, List.getLast?_cons_cons]
      exact hlast

theorem paired_breakLines (s : CodeUnits) : Paired (breakLines s) := by
  fun_induction breakLines s with
  | case1 => exact paired_nil
  | case2 s ih => exact ih.break
  | case3 u s hu hbreak ih => exact ih
  | case4 u s hu hbreak ih => exact ih.cons hu

theorem Paired.of_begins (h : Paired t) (hs : s <+: t) : Paired s := by
  obtain ⟨rest, rfl⟩ := hs
  intro a b heq
  exact h a (b ++ rest) (by rw [heq, List.append_assoc]; rfl)

theorem Paired.ne_lf (h : Paired (u :: s)) : u ≠ 0x0a := by
  rintro rfl
  exact absurd (h [] s rfl) (by simp)

theorem Paired.tail (h : Paired (u :: s)) (hnext : ¬(u = 0x0d ∧ s.head? = some 0x0a)) : Paired s := by
  intro a b heq
  have hlast := h (u :: a) b (by rw [heq]; rfl)
  cases a with
  | nil => exact absurd ⟨Option.some.inj hlast, by rw [heq]; rfl⟩ hnext
  | cons v a => rwa [List.getLast?_cons_cons] at hlast

theorem Paired.after_break (h : Paired (0x0d :: 0x0a :: s)) : Paired s := by
  intro a b heq
  have hlast := h (0x0d :: 0x0a :: a) b (by rw [heq]; rfl)
  cases a with
  | nil => exact absurd (Option.some.inj hlast) (by decide)
  | cons v a => rwa [List.getLast?_cons_cons, List.getLast?_cons_cons] at hlast

/-- The lines have no line feed. -/
theorem lf_notMem_line (h : Paired s) : ∀ l ∈ lines 0x0d 0x0a s, 0x0a ∉ l := by
  fun_induction lines 0x0d 0x0a s with
  | case1 => simp
  | case2 u =>
    intro l hl
    rw [List.mem_singleton.mp hl, List.mem_singleton]
    exact h.ne_lf.symm
  | case3 u v s hbreak ih =>
    obtain ⟨rfl, rfl⟩ := hbreak
    intro l hl
    rcases List.mem_cons.mp hl with rfl | hl
    · exact List.not_mem_nil
    · exact ih h.after_break l hl
  | case4 u v s hbreak ih =>
    have hrest := ih (h.tail fun hpair => hbreak ⟨hpair.1, Option.some.inj hpair.2⟩)
    obtain ⟨first, ls, hlines⟩ := List.exists_cons_of_ne_nil
      (lines_ne_nil (0x0d : UInt16) 0x0a (v :: s))
    rw [hlines] at hrest ⊢
    intro l hl
    rcases List.mem_cons.mp hl with rfl | hl
    · rw [List.mem_cons, not_or]
      exact ⟨h.ne_lf.symm, hrest first List.mem_cons_self⟩
    · exact hrest l (List.mem_cons_of_mem _ hl)

/-! ## The fields of a message -/

/-- Lines without line feeds, every one but the first with white space in front. -/
structure Folded (first : CodeUnits) (more : List CodeUnits) : Prop where
  noLf : ∀ line ∈ first :: more, 0x0a ∉ line
  wsp : ∀ line ∈ more, line.head?.any isWsp = true

/-- A field as it stands in a message. -/
def FieldText (raw : CodeUnits) : Prop := ∃ first more, Folded first more ∧ raw = joinLines 0x0d 0x0a (first :: more)

theorem fieldText_line (h : 0x0a ∉ l) : FieldText l :=
  ⟨l, [], ⟨fun line hline => by rwa [List.mem_singleton.mp hline], fun _ hline => absurd hline List.not_mem_nil⟩,
    (joinLines_singleton l).symm⟩

theorem FieldText.fold (h : FieldText raw) (hlf : 0x0a ∉ l) (hwsp : l.head?.any isWsp = true) :
    FieldText (raw ++ crlf ++ l) := by
  obtain ⟨first, more, ⟨hnoLf, hmore⟩, rfl⟩ := h
  refine ⟨first, more ++ [l], ⟨?_, ?_⟩, ?_⟩
  · intro line hline
    rcases List.mem_append.mp (show line ∈ (first :: more) ++ [l] from hline) with hline | hline
    · exact hnoLf line hline
    · rwa [List.mem_singleton.mp hline]
  · intro line hline
    rcases List.mem_append.mp hline with hline | hline
    · exact hmore line hline
    · rwa [List.mem_singleton.mp hline]
  · rw [← List.cons_append, joinLines_concat (List.cons_ne_nil first more), List.append_assoc]
    rfl

theorem fieldTurn_of {P : CodeUnits → Prop} {fields : List CodeUnits} (h : ∀ field ∈ fields, P field)
    (hl : P l) (hfold : ∀ previous, P previous → l.head?.any isWsp = true → P (previous ++ crlf ++ l)) :
    ∀ field ∈ fieldTurn fields l, P field := by
  have hnew : ∀ field ∈ fields ++ [l], P field := by
    intro field hfield
    rcases List.mem_append.mp hfield with hfield | hfield
    · exact h field hfield
    · rwa [List.mem_singleton.mp hfield]
  unfold fieldTurn
  cases hlast : fields.getLast? with
  | none => exact hnew
  | some previous =>
    dsimp only
    split_ifs with hwsp
    · intro field hfield
      rcases List.mem_append.mp hfield with hfield | hfield
      · exact h field (List.dropLast_subset _ hfield)
      · rw [List.mem_singleton.mp hfield]
        exact hfold previous (h previous (List.mem_of_getLast? hlast)) hwsp
    · exact hnew

theorem foldl_fieldTurn {P : CodeUnits → Prop} {rows fields : List CodeUnits}
    (h : ∀ field ∈ fields, P field) (hrows : ∀ row ∈ rows, P row)
    (hfold : ∀ row ∈ rows, ∀ previous, P previous → row.head?.any isWsp = true →
      P (previous ++ crlf ++ row)) : ∀ field ∈ rows.foldl fieldTurn fields, P field := by
  induction rows generalizing fields with
  | nil => exact h
  | cons row rows ih =>
    rw [List.foldl_cons]
    exact ih (fieldTurn_of h (hrows row List.mem_cons_self) (hfold row List.mem_cons_self))
      (fun row hrow => hrows row (List.mem_cons_of_mem _ hrow))
      fun row hrow => hfold row (List.mem_cons_of_mem _ hrow)

/-- Every unit is a byte. -/
def Latin (s : CodeUnits) : Prop := ∀ u ∈ s, u < 0x100

theorem latin_crlf : Latin crlf := by
  intro u hu
  rcases List.mem_cons.mp hu with rfl | hu
  · decide
  · rw [List.mem_singleton.mp hu]
    decide

theorem mem_breakLines (h : u ∈ breakLines s) : u ∈ crlf ∨ u ∈ s := by
  fun_induction breakLines s with
  | case1 => exact .inr h
  | case2 s ih =>
    rcases List.mem_append.mp h with h | h
    · exact .inl h
    · exact (ih h).imp_right (List.mem_cons_of_mem _)
  | case3 v s hv hbreak ih => exact (ih h).imp_right (List.mem_cons_of_mem _)
  | case4 v s hv hbreak ih =>
    rcases List.mem_cons.mp h with rfl | h
    · exact .inr List.mem_cons_self
    · exact (ih h).imp_right (List.mem_cons_of_mem _)

theorem latin_breakLines (message : List UInt8) : Latin (breakLines (message.map UInt8.toUInt16)) := by
  intro u hu
  rcases mem_breakLines hu with hu | hu
  · exact latin_crlf u hu
  · obtain ⟨byte, -, rfl⟩ := List.mem_map.mp hu
    rw [UInt16.lt_iff_toNat_lt]
    exact byte.toNat_lt

theorem mem_of_mem_line (hl : l ∈ lines 0x0d 0x0a s) (hu : u ∈ l) : u ∈ s := by
  have hjoin := join_lines (0x0d : UInt16) 0x0a s
  rw [← hjoin]
  generalize lines 0x0d 0x0a s = ls at hl
  induction ls with
  | nil => exact absurd hl List.not_mem_nil
  | cons first ls ih =>
    by_cases hnone : ls = []
    · rw [hnone] at hl ⊢
      rw [joinLines_singleton, ← List.mem_singleton.mp hl]
      exact hu
    · rw [joinLines_cons first hnone]
      rcases List.mem_cons.mp hl with rfl | hl
      · exact List.mem_append_left _ hu
      · exact List.mem_append_right _ (List.mem_cons_of_mem _ (List.mem_cons_of_mem _ (ih hl)))

theorem splitText_begins (text : CodeUnits) : (splitText text).1 <+: text := by
  unfold splitText
  split_ifs
  · exact List.nil_prefix
  · cases hcut : cut? (crlf ++ crlf) text with
    | none => exact List.prefix_refl text
    | some cut => exact ⟨_, (cut?_eq_some.mp hcut).split.symm⟩

/-- The rows of the header section. -/
theorem exists_rows (message : List UInt8) : ∃ rows : List CodeUnits,
    (splitMessage message).1 = (rows.foldl fieldTurn []).map headerField ∧
      ∀ row ∈ rows, 0x0a ∉ row ∧ Latin row := by
  have hbegins := splitText_begins (breakLines (message.map UInt8.toUInt16))
  have hpaired := (paired_breakLines (message.map UInt8.toUInt16)).of_begins hbegins
  have hlatin := latin_breakLines message
  refine ⟨if (splitText (breakLines (message.map UInt8.toUInt16))).1 = [] then []
    else lines 0x0d 0x0a (splitText (breakLines (message.map UInt8.toUInt16))).1, rfl, fun row hrow => ?_⟩
  split_ifs at hrow
  · exact absurd hrow List.not_mem_nil
  · exact ⟨lf_notMem_line hpaired row hrow,
      fun u hu => hlatin u (hbegins.subset (mem_of_mem_line hrow hu))⟩

theorem splitMessage_field {message : List UInt8} {field : HeaderField}
    (h : field ∈ (splitMessage message).1) : field = headerField field.raw := by
  obtain ⟨rows, hfields, -⟩ := exists_rows message
  rw [hfields] at h
  obtain ⟨raw, -, rfl⟩ := List.mem_map.mp h
  rfl

theorem splitMessage_of {P : CodeUnits → Prop} (hrow : ∀ row, 0x0a ∉ row → Latin row → P row)
    (hfold : ∀ row previous, 0x0a ∉ row → Latin row → P previous → row.head?.any isWsp = true →
      P (previous ++ crlf ++ row)) {message : List UInt8} {field : HeaderField}
    (h : field ∈ (splitMessage message).1) : P field.raw := by
  obtain ⟨rows, hfields, hrows⟩ := exists_rows message
  rw [hfields] at h
  obtain ⟨raw, hraw, rfl⟩ := List.mem_map.mp h
  refine foldl_fieldTurn (fun _ hmem => absurd hmem List.not_mem_nil)
    (fun row hmem => hrow row (hrows row hmem).1 (hrows row hmem).2) ?_ raw hraw
  exact fun row hmem previous => hfold row previous (hrows row hmem).1 (hrows row hmem).2

theorem splitMessage_fieldText {message : List UInt8} {field : HeaderField}
    (h : field ∈ (splitMessage message).1) : FieldText field.raw :=
  splitMessage_of (fun _ hlf _ => fieldText_line hlf)
    (fun _ _ hlf _ hprevious hwsp => hprevious.fold hlf hwsp) h

theorem splitMessage_latin {message : List UInt8} {field : HeaderField}
    (h : field ∈ (splitMessage message).1) : Latin field.raw := by
  refine splitMessage_of (fun _ _ hlatin => hlatin) (fun row previous _ hlatin hprevious _ u hu => ?_) h
  rcases List.mem_append.mp hu with hu | hu
  · rcases List.mem_append.mp hu with hu | hu
    · exact hprevious u hu
    · exact latin_crlf u hu
  · exact hlatin u hu

/-! ## Unfolding -/

theorem unfold_of_noLf (h : 0x0a ∉ l) : unfold l = l := by
  fun_induction unfold l with
  | case1 => rfl
  | case2 u => rfl
  | case3 u v s hbreak ih => exact absurd (by simp [hbreak.2]) h
  | case4 u v s hbreak ih => rw [ih (List.not_mem_of_not_mem_cons h)]

theorem unfold_append_break (h : 0x0a ∉ l) (s : CodeUnits) :
    unfold (l ++ 0x0d :: 0x0a :: s) = l ++ unfold s := by
  induction l with
  | nil => rfl
  | cons u l ih =>
    have hrest := ih (List.not_mem_of_not_mem_cons h)
    have hgoes : unfold (u :: (l ++ 0x0d :: 0x0a :: s)) = u :: unfold (l ++ 0x0d :: 0x0a :: s) := by
      cases l with
      | nil => rw [List.nil_append, unfold, if_neg fun hpair => absurd hpair.2 (by decide)]
      | cons v l =>
        rw [List.cons_append, unfold, if_neg]
        rintro ⟨-, rfl⟩
        simp at h
    rw [List.cons_append, hgoes, hrest]
    rfl

theorem unfoldWsp_of_noLf (h : 0x0a ∉ l) : unfoldWsp l = l := by
  fun_induction unfoldWsp l with
  | case1 => rfl
  | case2 u => rfl
  | case3 u v s hbreak ih => exact absurd (by simp [hbreak.2.1]) h
  | case4 u v s hbreak ih => rw [ih (List.not_mem_of_not_mem_cons h)]

theorem unfoldWsp_append_break (h : 0x0a ∉ l) (hs : s.head?.any isWsp = true) :
    unfoldWsp (l ++ 0x0d :: 0x0a :: s) = l ++ unfoldWsp s := by
  induction l with
  | nil => rw [List.nil_append, unfoldWsp, if_pos ⟨rfl, rfl, hs⟩, List.nil_append]
  | cons u l ih =>
    have hrest := ih (List.not_mem_of_not_mem_cons h)
    have hgoes : unfoldWsp (u :: (l ++ 0x0d :: 0x0a :: s)) = u :: unfoldWsp (l ++ 0x0d :: 0x0a :: s) := by
      cases l with
      | nil => rw [List.nil_append, unfoldWsp, if_neg fun hpair => absurd hpair.2.1 (by decide)]
      | cons v l =>
        rw [List.cons_append, unfoldWsp, if_neg]
        rintro ⟨-, rfl, -⟩
        simp at h
    rw [List.cons_append, hgoes, hrest]
    rfl

/-- The line breaks go, and no line feed is left. -/
theorem Folded.unfolds {first : CodeUnits} {more : List CodeUnits} (h : Folded first more) :
    unfold (joinLines 0x0d 0x0a (first :: more)) = (first :: more).flatten ∧
      unfoldWsp (joinLines 0x0d 0x0a (first :: more)) = (first :: more).flatten := by
  induction more generalizing first with
  | nil =>
    have hlf := h.noLf first List.mem_cons_self
    rw [joinLines_singleton, unfold_of_noLf hlf, unfoldWsp_of_noLf hlf]
    simp
  | cons line more ih =>
    have hlf := h.noLf first List.mem_cons_self
    have hrest : Folded line more := ⟨fun l hl => h.noLf l (List.mem_cons_of_mem _ hl),
      fun l hl => h.wsp l (List.mem_cons_of_mem _ hl)⟩
    have hwsp : (joinLines 0x0d 0x0a (line :: more)).head?.any isWsp = true := by
      have hline := h.wsp line List.mem_cons_self
      obtain ⟨u, rest, rfl⟩ := List.exists_cons_of_ne_nil (l := line) (by rintro rfl; simp at hline)
      cases more with
      | nil => rwa [joinLines_singleton]
      | cons next more => rwa [joinLines_cons _ (by simp)]
    obtain ⟨hcode, hform⟩ := ih hrest
    rw [joinLines_cons first (by simp), unfold_append_break hlf, unfoldWsp_append_break hlf hwsp, hcode, hform,
      List.flatten_cons]
    exact ⟨rfl, rfl⟩

theorem FieldText.unfolds (h : FieldText raw) : unfoldWsp raw = unfold raw ∧ 0x0a ∉ unfold raw := by
  obtain ⟨first, more, hfolded, rfl⟩ := h
  obtain ⟨hcode, hform⟩ := hfolded.unfolds
  rw [hcode, hform]
  refine ⟨rfl, fun hmem => ?_⟩
  obtain ⟨line, hline, hlf⟩ := List.mem_flatten.mp hmem
  exact hfolded.noLf line hline hlf

theorem unfold_append (hcr : u ≠ 0x0d) (hlf : u ≠ 0x0a) (s t : CodeUnits) :
    unfold (s ++ u :: t) = unfold s ++ u :: unfold t := by
  have hhere : unfold (u :: t) = u :: unfold t := by
    cases t with
    | nil => rfl
    | cons v t => rw [unfold, if_neg fun hpair => hcr hpair.1]
  fun_induction unfold s with
  | case1 => exact hhere
  | case2 v => rw [List.cons_append, List.nil_append, unfold, if_neg fun hpair => hlf hpair.2, hhere]; rfl
  | case3 v w s hbreak ih => rw [List.cons_append, List.cons_append, unfold, if_pos hbreak, ih]
  | case4 v w s hbreak ih =>
    rw [List.cons_append, List.cons_append, unfold, if_neg hbreak, List.cons_append, ← ih]
    rfl

theorem mem_unfold (h : u ∈ unfold s) : u ∈ s := by
  fun_induction unfold s with
  | case1 => exact h
  | case2 v => exact h
  | case3 v w s hbreak ih => exact List.mem_cons_of_mem _ (List.mem_cons_of_mem _ (ih h))
  | case4 v w s hbreak ih =>
    rcases List.mem_cons.mp h with rfl | h
    · exact List.mem_cons_self
    · exact List.mem_cons_of_mem _ (ih h)

/-! ## Values -/

theorem mem_reduceWsp (h : u ∈ reduceWsp s) : u = 0x20 ∨ u ∈ s := by
  fun_induction reduceWsp s with
  | case1 => exact .inr h
  | case2 v s hv hnext ih => exact (ih h).imp_right (List.mem_cons_of_mem _)
  | case3 v s hv hnext ih =>
    rcases List.mem_cons.mp h with rfl | h
    · exact .inl rfl
    · exact (ih h).imp_right (List.mem_cons_of_mem _)
  | case4 v s hv ih =>
    rcases List.mem_cons.mp h with rfl | h
    · exact .inr List.mem_cons_self
    · exact (ih h).imp_right (List.mem_cons_of_mem _)

theorem dropSpaces_of_reduced (h : Reduced s) : dropLastSpace (dropFirstSpace s) = stripEnds isWsp s := by
  rw [dropFirstSpace_of_reduced h, dropLastSpace_of_reduced (h.of_within (List.dropWhile_suffix _).isInfix)]
  rfl

theorem reduced_stripEnds (h : Reduced s) : Reduced (stripEnds isWsp s) :=
  h.of_within ((List.rdropWhile_prefix _ _).isInfix.trans (List.dropWhile_suffix _).isInfix)

/-! ## Names -/

theorem isFws_lower (u : UInt16) : isFws (lower u) = isFws u := by
  unfold isFws lower
  split_ifs <;> grind

theorem lower_lower (u : UInt16) : lower (lower u) = lower u := by
  unfold lower
  split_ifs <;> grind

theorem lower_eq_colon (h : lower u = 0x3a) : u = 0x3a := by
  unfold lower at h
  split_ifs at h <;> grind

theorem lower_eq_lf (h : lower u = 0x0a) : u = 0x0a := by
  unfold lower at h
  split_ifs at h <;> grind

theorem isFws_of_isWsp (h : isWsp u = true) : isFws u = true := by
  unfold isWsp at h
  unfold isFws
  grind

theorem solid_lowerAscii (h : Solid isFws s) : Solid isFws (lowerAscii s) := by
  constructor
  · intro u hu
    rw [lowerAscii, List.head?_map, Option.mem_def, Option.map_eq_some_iff] at hu
    obtain ⟨v, hv, rfl⟩ := hu
    rw [isFws_lower, h.head v hv]
  · intro u hu
    rw [lowerAscii, List.getLast?_map, Option.mem_def, Option.map_eq_some_iff] at hu
    obtain ⟨v, hv, rfl⟩ := hu
    rw [isFws_lower, h.last v hv]

theorem lowerAscii_idem (s : CodeUnits) : lowerAscii (lowerAscii s) = lowerAscii s := by
  unfold lowerAscii
  rw [List.map_map]
  exact List.map_congr_left fun u _ => lower_lower u

theorem not_innerSpace (h : n.any isWsp = false) : ¬InnerSpace n := by
  rintro ⟨a, u, b, rfl, hu, -⟩
  rw [List.any_eq_false] at h
  exact h u (by simp) hu

theorem exists_bareName (name : CodeUnits) : ∃ w, name = bareName name ++ w ∧ ∀ u ∈ w, isWsp u = true := by
  refine ⟨(name.reverse.takeWhile isWsp).reverse, ?_, fun u hu => List.mem_takeWhile_imp (List.mem_reverse.mp hu)⟩
  unfold bareName List.rdropWhile
  rw [← List.reverse_append, List.takeWhile_append_dropWhile, List.reverse_reverse]

theorem last_bareName (h : bareName n ≠ []) : isWsp ((bareName n).getLast h) = false :=
  Bool.eq_false_iff.mpr (List.rdropWhile_last_not isWsp n h)

theorem trimFws_bareName (name : CodeUnits) : trimFws name = trimFws (bareName name) := by
  obtain ⟨w, hname, hw⟩ := exists_bareName name
  obtain ⟨a, b, hbare, ha, hb⟩ := exists_stripEnds isFws (bareName name)
  have hend : ∀ u ∈ b ++ w, isFws u = true := by
    intro u hu
    rcases List.mem_append.mp hu with hu | hu
    · exact hb u hu
    · exact isFws_of_isWsp (hw u hu)
  have hsplit : name = a ++ (stripEnds isFws (bareName name) ++ (b ++ w)) := by
    rw [← List.append_assoc, ← List.append_assoc, List.append_assoc a, ← hbare]
    exact hname
  conv_lhs => rw [hsplit]
  exact stripEnds_append ha (solid_stripEnds isFws _) hend

theorem reduceWsp_concat (s : CodeUnits) (hu : isWsp u = true) :
    reduceWsp (s ++ [u]) = reduceWsp s ∨ reduceWsp (s ++ [u]) = reduceWsp s ++ [0x20] := by
  have hlast : reduceWsp [u] = [0x20] := by
    rw [reduceWsp, if_pos hu]
    rfl
  induction s with
  | nil => exact .inr hlast
  | cons v s ih =>
    cases s with
    | nil =>
      by_cases hv : isWsp v = true
      · exact .inl (by simp [reduceWsp, hu, hv])
      · exact .inr (by simp [reduceWsp, hu, hv])
    | cons w s =>
      rw [List.cons_append, reduceWsp, reduceWsp, List.cons_append, List.head?_cons, List.head?_cons,
        ← List.cons_append]
      split_ifs
      · exact ih
      · exact ih.imp (congrArg (0x20 :: ·)) (congrArg (0x20 :: ·))
      · exact ih.imp (congrArg (v :: ·)) (congrArg (v :: ·))

theorem bareName_reduceWsp (name : CodeUnits) : bareName (reduceWsp name) = reduceWsp (bareName name) := by
  induction name using List.reverseRecOn with
  | nil => rfl
  | append_singleton s u ih =>
    unfold bareName at ih ⊢
    by_cases hu : isWsp u = true
    · rw [List.rdropWhile_concat_pos _ _ _ hu, ← ih]
      rcases reduceWsp_concat s hu with heq | heq
      · rw [heq]
      · rw [heq, List.rdropWhile_concat_pos _ _ _ rfl]
    · have hkeeps : reduceWsp [u] = [u] := by
        rw [reduceWsp, if_neg hu]
        rfl
      have hhead : ([u] : CodeUnits).head?.any isWsp = false := Bool.eq_false_iff.mpr hu
      rw [List.rdropWhile_concat_neg _ _ _ hu, reduceWsp_append hhead, hkeeps, List.rdropWhile_concat_neg _ _ _ hu]

theorem reduceWsp_of_wsp (hu : isWsp u = true) (s : CodeUnits) : ∃ more, reduceWsp (u :: s) = 0x20 :: more := by
  induction s generalizing u with
  | nil => exact ⟨[], by simp [reduceWsp, hu]⟩
  | cons v s ih =>
    rw [reduceWsp, if_pos hu]
    split_ifs with hnext
    · exact ih hnext
    · exact ⟨_, rfl⟩

theorem reduceWsp_of_plain (h : ∀ u ∈ s, isWsp u = false) : reduceWsp s = s := by
  induction s with
  | nil => rfl
  | cons u s ih =>
    rw [reduceWsp, if_neg (by rw [h u List.mem_cons_self]; exact Bool.false_ne_true),
      ih fun v hv => h v (List.mem_cons_of_mem _ hv)]

/-- A bare name without white space in front has none at all. -/
theorem plain_bareName (hinner : ¬InnerSpace n) (hhead : ¬(bareName n).head?.any isWsp = true) :
    ∀ u ∈ bareName n, isWsp u = false := by
  intro u hu
  by_contra hwsp
  rw [Bool.not_eq_false] at hwsp
  obtain ⟨w, hname, -⟩ := exists_bareName n
  obtain ⟨a, b, hsplit⟩ := List.append_of_mem hu
  have hlast := last_bareName (n := n) (by rw [hsplit]; simp)
  refine hinner ⟨a, u, b ++ w, by rw [hname, hsplit]; simp, hwsp, ?_, ?_⟩
  · cases a with
    | nil =>
      rw [hsplit] at hhead
      exact absurd hwsp hhead
    | cons v a =>
      rw [hsplit] at hhead
      exact ⟨v, List.mem_cons_self, Bool.eq_false_iff.mpr hhead⟩
  · cases b with
    | nil =>
      simp only [hsplit, List.getLast_append_singleton] at hlast
      rw [hwsp] at hlast
      exact absurd hlast (by decide)
    | cons v b =>
      refine ⟨_, List.mem_append_left _ (List.getLast_mem (List.cons_ne_nil v b)), ?_⟩
      simpa [hsplit] using hlast

/-- The names the code and the form have are the same when the bare name is solid, and only then. -/
theorem name_iff (hinner : ¬InnerSpace n) :
    lowerAscii (trimFws n) = lowerAscii (bareName (reduceWsp n)) ↔ Solid isFws (bareName n) := by
  rw [trimFws_bareName, bareName_reduceWsp]
  obtain ⟨w, hname, hw⟩ := exists_bareName n
  by_cases hhead : (bareName n).head?.any isWsp = true
  · obtain ⟨v, rest, hbare⟩ := List.exists_cons_of_ne_nil (l := bareName n) (by intro h; simp [h] at hhead)
    rw [hbare] at hhead ⊢
    rw [List.head?_cons, Option.any_some] at hhead
    refine iff_of_false (fun heq => ?_) fun hsolid => ?_
    · obtain ⟨more, hreduce⟩ : ∃ more, reduceWsp (v :: rest) = 0x20 :: more :=
        reduceWsp_of_wsp hhead rest
      have hspace : (lowerAscii (trimFws (v :: rest))).head? = some 0x20 := by
        rw [heq, hreduce]
        rfl
      have hsolid := solid_lowerAscii (solid_stripEnds isFws (v :: rest))
      exact absurd (hsolid.head 0x20 hspace) (by decide)
    · have hv := hsolid.head v rfl
      rw [isFws_of_isWsp hhead] at hv
      exact absurd hv (by decide)
  · have hplain : ∀ u ∈ bareName n, isWsp u = false := plain_bareName hinner hhead
    have hreduced : reduceWsp (bareName n) = bareName n := reduceWsp_of_plain hplain
    rw [hreduced]
    constructor
    · intro heq
      have hlength := congrArg List.length heq
      unfold lowerAscii at hlength
      rw [List.length_map, List.length_map] at hlength
      have hsame : stripEnds isFws (bareName n) = bareName n :=
        (stripEnds_sublist isFws (bareName n)).eq_of_length hlength
      rw [← hsame]
      exact solid_stripEnds isFws _
    · intro hsolid
      rw [trimFws, stripEnds_of_solid hsolid]

/-! ## The field in its form -/

section Field

variable {before after : CodeUnits}

theorem relaxedHeader_colon (h : 0x3a ∉ before) :
    relaxedHeader (before ++ 0x3a :: after) =
      lowerAscii (trimFws (unfold before)) ++ 0x3a :: stripEnds isWsp (reduceWsp (unfold after)) := by
  have hcut : cut? [0x3a] (before ++ 0x3a :: after) = some (before, after) :=
    cut?_eq_some.mpr (firstCut_singleton.mpr ⟨rfl, h⟩)
  rw [relaxedHeader, hcut, ← dropSpaces_of_reduced (reduced_reduceWsp _)]

theorem headerForm_colon (h : 0x3a ∉ before) (hfield : FieldText (before ++ 0x3a :: after)) :
    headerForm (before ++ 0x3a :: after) =
      lowerAscii (bareName (reduceWsp (unfold before))) ++
        0x3a :: stripEnds isWsp (reduceWsp (unfold after)) := by
  have hreduced : reduceWsp (unfoldWsp (before ++ 0x3a :: after)) =
      reduceWsp (unfold before) ++ 0x3a :: reduceWsp (unfold after) := by
    rw [hfield.unfolds.1, unfold_append (by decide) (by decide), reduceWsp_append rfl]
    rfl
  have hname : ∀ u ∈ reduceWsp (unfold before), decide (u ≠ 0x3a) = true := by
    intro u hu
    refine decide_eq_true ?_
    rintro rfl
    rcases mem_reduceWsp hu with hspace | hmem
    · exact absurd hspace (by decide)
    · exact h (mem_unfold hmem)
  have htake : ∀ s : CodeUnits, (0x3a :: s).takeWhile (· ≠ 0x3a) = [] := fun _ => rfl
  have hdrop : ∀ s : CodeUnits, (0x3a :: s).dropWhile (· ≠ 0x3a) = 0x3a :: s := fun _ => rfl
  unfold headerForm
  rw [hreduced]
  dsimp only
  rw [List.takeWhile_append_of_pos hname, List.dropWhile_append_of_pos hname, htake, hdrop, List.append_nil,
    List.tail_cons]

theorem relaxedHeader_idem (h : 0x3a ∉ before) (hfield : FieldText (before ++ 0x3a :: after)) :
    relaxedHeader (relaxedHeader (before ++ 0x3a :: after)) = relaxedHeader (before ++ 0x3a :: after) := by
  have hlf := hfield.unfolds.2
  rw [unfold_append (by decide) (by decide), List.mem_append, List.mem_cons, not_or, not_or] at hlf
  obtain ⟨hbefore, -, hafter⟩ := hlf
  have hname : 0x3a ∉ lowerAscii (trimFws (unfold before)) := by
    intro hmem
    obtain ⟨u, hu, heq⟩ := List.mem_map.mp hmem
    obtain rfl := lower_eq_colon heq
    exact h (mem_unfold ((stripEnds_sublist isFws _).subset hu))
  have hnameLf : 0x0a ∉ lowerAscii (trimFws (unfold before)) := by
    intro hmem
    obtain ⟨u, hu, heq⟩ := List.mem_map.mp hmem
    obtain rfl := lower_eq_lf heq
    exact hbefore ((stripEnds_sublist isFws _).subset hu)
  have hvalueLf : 0x0a ∉ stripEnds isWsp (reduceWsp (unfold after)) := by
    intro hmem
    rcases mem_reduceWsp ((stripEnds_sublist isWsp _).subset hmem) with hspace | hmem
    · exact absurd hspace (by decide)
    · exact hafter hmem
  have hreduced : Reduced (stripEnds isWsp (reduceWsp (unfold after))) :=
    reduced_stripEnds (reduced_reduceWsp _)
  have htrimmed : trimFws (lowerAscii (trimFws (unfold before))) = lowerAscii (trimFws (unfold before)) :=
    stripEnds_of_solid (solid_lowerAscii (solid_stripEnds isFws _))
  rw [relaxedHeader_colon h, relaxedHeader_colon hname, unfold_of_noLf hnameLf, unfold_of_noLf hvalueLf,
    htrimmed, lowerAscii_idem, reduceWsp_of_reduced hreduced, stripEnds_of_solid (solid_stripEnds isWsp _)]

end Field

theorem mem_relaxedHeader (h : u ∈ relaxedHeader raw) :
    u = 0x20 ∨ u = 0x3a ∨ ∃ v ∈ unfold raw, u = v ∨ u = lower v := by
  have hname : ∀ s : CodeUnits, u ∈ lowerAscii (trimFws s) → ∃ v ∈ s, u = lower v := by
    intro s hmem
    obtain ⟨v, hv, rfl⟩ := List.mem_map.mp hmem
    exact ⟨v, (stripEnds_sublist isFws _).subset hv, rfl⟩
  cases hcut : cut? [0x3a] raw with
  | none =>
    rw [relaxedHeader, hcut] at h
    obtain ⟨v, hv, hlower⟩ := hname _ h
    exact .inr (.inr ⟨v, hv, .inr hlower⟩)
  | some cut =>
    obtain ⟨rfl, hcolon⟩ := firstCut_singleton.mp (cut?_eq_some.mp hcut)
    rw [relaxedHeader_colon hcolon] at h
    rw [unfold_append (by decide) (by decide)]
    rcases List.mem_append.mp h with h | h
    · obtain ⟨v, hv, hlower⟩ := hname _ h
      exact .inr (.inr ⟨v, List.mem_append_left _ hv, .inr hlower⟩)
    · rcases List.mem_cons.mp h with rfl | h
      · exact .inr (.inl rfl)
      · rcases mem_reduceWsp ((stripEnds_sublist isWsp _).subset h) with hspace | hmem
        · exact .inl hspace
        · exact .inr (.inr ⟨u, List.mem_append_right _ (List.mem_cons_of_mem _ hmem), .inl rfl⟩)

theorem relaxedHeader_noLf (h : FieldText raw) : 0x0a ∉ relaxedHeader raw := by
  intro hmem
  rcases mem_relaxedHeader hmem with hspace | hcolon | ⟨v, hv, heq⟩
  · exact absurd hspace (by decide)
  · exact absurd hcolon (by decide)
  · have hlf : v = 0x0a := heq.elim Eq.symm fun heq => lower_eq_lf heq.symm
    exact h.unfolds.2 (hlf ▸ hv)

theorem relaxedHeader_latin (h : Latin raw) : Latin (relaxedHeader raw) := by
  intro u hu
  rcases mem_relaxedHeader hu with rfl | rfl | ⟨v, hv, rfl | rfl⟩
  · decide
  · decide
  · exact h u (mem_unfold hv)
  · have hv' := h v (mem_unfold hv)
    unfold lower
    split_ifs <;> grind

/-- **Bodies come out in their form.  So does a field of a message, but for a name that begins with white
space or has a bare carriage return at an end.**  Both forms are their own. -/
theorem canonical_exact (canon : Canonicalization) (body : CodeUnits) {message : List UInt8}
    {field : HeaderField} (hmem : field ∈ (splitMessage message).1) (hcolon : 0x3a ∈ field.raw)
    (hinner : ¬InnerSpace (nameText field.raw)) :
    (canonicalBody body canon = bodyForm canon body ∧
      canonicalBody (canonicalBody body canon) canon = canonicalBody body canon) ∧
    (relaxedHeader field.raw = headerForm field.raw ∧
      relaxedHeader (relaxedHeader field.raw) = relaxedHeader field.raw ↔
        Solid isFws (bareName (nameText field.raw))) := by
  constructor
  · refine ⟨canonicalBody_eq canon body, ?_⟩
    rw [canonicalBody_eq, canonicalBody_eq, bodyForm_idem]
  · have hfield := splitMessage_fieldText hmem
    obtain ⟨before, after, hraw, hbefore⟩ := List.eq_append_cons_of_mem hcolon
    have hname : nameText field.raw = unfold before := by
      have hplain : ∀ u ∈ before, decide (u ≠ 0x3a) = true := fun u hu =>
        decide_eq_true fun heq => hbefore (heq ▸ hu)
      unfold nameText
      rw [hraw, List.takeWhile_append_of_pos hplain, List.takeWhile_cons_of_neg (by decide),
        List.append_nil]
    rw [hname] at hinner ⊢
    rw [hraw] at hfield ⊢
    rw [relaxedHeader_idem hbefore hfield, relaxedHeader_colon hbefore, headerForm_colon hbefore hfield,
      List.append_left_inj]
    exact (and_iff_left rfl).trans (name_iff hinner)

/-- The field `A:<HTAB>B`, folded before a `C`. -/
theorem canonical_exact_folded : ∃ field ∈ (splitMessage [0x41, 0x3a, 0x09, 0x42, 0x0a, 0x20, 0x43]).1,
    relaxedHeader field.raw = headerForm field.raw ∧ headerForm field.raw = of "a:B C" := by
  have hmem : headerField [0x41, 0x3a, 0x09, 0x42, 0x0d, 0x0a, 0x20, 0x43] ∈
      (splitMessage [0x41, 0x3a, 0x09, 0x42, 0x0a, 0x20, 0x43]).1 := by decide +kernel
  refine ⟨_, hmem, ?_, by decide +kernel⟩
  refine ((canonical_exact .relaxed [] hmem (by decide) (not_innerSpace ?_)).2.mpr ?_).1
  · decide +kernel
  · have hname : bareName
        (nameText (headerField [0x41, 0x3a, 0x09, 0x42, 0x0d, 0x0a, 0x20, 0x43]).raw) = [0x41] := by
      decide +kernel
    have hletter : ∀ u ∈ some (0x41 : UInt16), isFws u = false := by
      rintro u hu
      obtain rfl := Option.some.inj hu
      rfl
    exact ⟨by rw [hname]; exact hletter, by rw [hname]; exact hletter⟩

/-- The message `A<CR>:B`. -/
theorem not_headerForm_cr : ∃ field ∈ (splitMessage [0x41, 0x0d, 0x3a, 0x42]).1,
    0x3a ∈ field.raw ∧ ¬InnerSpace (nameText field.raw) ∧
      relaxedHeader field.raw = of "a:B" ∧ headerForm field.raw = [0x61, 0x0d, 0x3a, 0x42] := by
  refine ⟨headerField [0x41, 0x0d, 0x3a, 0x42], by decide +kernel, by decide, not_innerSpace ?_,
    by decide +kernel, by decide +kernel⟩
  decide +kernel

end BunMail.Inbound.DkimCanonical
