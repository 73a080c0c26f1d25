import Mathlib
import BunMail.Emails.DkimSign

/-!
# Folded signatures

A signed message is split into the signature and the fields and body that were signed.  Folding a
signature only adds line breaks and spaces: before a tag, before an entry of `h=`, and in `b=`.
-/

namespace BunMail.Emails.DkimSigner

open CodeUnits Lines Inbound.DkimCanonical Inbound.DkimVerifier

variable {u : UInt16} {l s t : CodeUnits}

/-- What each unit of a list is, is decided unit by unit. -/
scoped instance decidableUnits (p : UInt16 → Prop) [DecidablePred p] (units : CodeUnits) :
    Decidable (∀ u ∈ units, p u) := List.decidableBAll p units

/-! ## Wire text -/

/-- Every CR and every LF stands in a CRLF. -/
inductive Wire : CodeUnits → Prop
  | nil : Wire []
  | unit {u : UInt16} {s : CodeUnits} (hcr : u ≠ 0x0d) (hlf : u ≠ 0x0a) (hs : Wire s) : Wire (u :: s)
  | line {s : CodeUnits} (hs : Wire s) : Wire (0x0d :: 0x0a :: s)

/-- Without CR and LF. -/
def Plain (l : CodeUnits) : Prop := ∀ u ∈ l, u ≠ 0x0d ∧ u ≠ 0x0a

instance : DecidablePred Plain := fun l => inferInstanceAs (Decidable (∀ u ∈ l, u ≠ 0x0d ∧ u ≠ 0x0a))

theorem Wire.append (hs : Wire s) (ht : Wire t) : Wire (s ++ t) := by
  induction hs with
  | nil => exact ht
  | unit hcr hlf _ ih => exact .unit hcr hlf ih
  | line _ ih => exact .line ih

theorem wire_crlf : Wire crlf := .line .nil

theorem wire_of_plain (h : Plain l) : Wire l := by
  induction l with
  | nil => exact .nil
  | cons u l ih =>
    obtain ⟨hcr, hlf⟩ := h u List.mem_cons_self
    exact .unit hcr hlf (ih fun v hv => h v (List.mem_cons_of_mem _ hv))

theorem wire_wireBreaks (s : CodeUnits) : Wire (wireBreaks s) := by
  fun_induction wireBreaks s with
  | case1 => exact .nil
  | case2 u h => exact wire_crlf
  | case3 u h => exact .unit (fun hcr => h (.inl hcr)) (fun hlf => h (.inr hlf)) .nil
  | case4 u v s h ih => exact wire_crlf.append ih
  | case5 u v s h h' ih => exact wire_crlf.append ih
  | case6 u v s h h' ih => exact .unit (fun hcr => h' (.inl hcr)) (fun hlf => h' (.inr hlf)) ih

theorem mem_wireBreaks (h : u ∈ wireBreaks s) : u ∈ crlf ∨ u ∈ s := by
  fun_induction wireBreaks s with
  | case1 => exact .inr h
  | case2 v hv => exact .inl h
  | case3 v hv => exact .inr h
  | case4 v w s hvw ih =>
    rcases List.mem_append.mp h with h | h
    · exact .inl h
    · exact (ih h).imp_right fun h => List.mem_cons_of_mem _ (List.mem_cons_of_mem _ h)
  | case5 v w s hvw hv ih =>
    rcases List.mem_append.mp h with h | h
    · exact .inl h
    · exact (ih h).imp_right fun h => List.mem_cons_of_mem _ h
  | case6 v w s hvw hv ih =>
    rcases List.mem_cons.mp h with rfl | h
    · exact .inr List.mem_cons_self
    · exact (ih h).imp_right fun h => List.mem_cons_of_mem _ h

variable {message : List UInt8}

theorem wire_wireText (message : List UInt8) : Wire (wireText message) := by
  unfold wireText
  dsimp only
  split_ifs
  · exact wire_wireBreaks _
  · exact (wire_wireBreaks _).append wire_crlf

theorem latin_message (message : List UInt8) : Latin (message.map UInt8.toUInt16) := by
  intro u hu
  obtain ⟨b, -, rfl⟩ := List.mem_map.mp hu
  rw [UInt16.lt_iff_toNat_lt, UInt8.toNat_toUInt16]
  exact b.toNat_lt

theorem latin_wireText (message : List UInt8) : Latin (wireText message) := by
  have hbreaks : Latin (wireBreaks (message.map UInt8.toUInt16)) := by
    intro u hu
    rcases mem_wireBreaks hu with hu | hu
    · exact latin_crlf u hu
    · exact latin_message message u hu
  unfold wireText
  dsimp only
  split_ifs
  · exact hbreaks
  · intro u hu
    rcases List.mem_append.mp hu with hu | hu
    · exact hbreaks u hu
    · exact latin_crlf u hu

theorem wireText_ne_nil (message : List UInt8) : wireText message ≠ [] := by
  unfold wireText
  dsimp only
  split_ifs with h
  · rintro hnil
    rw [hnil] at h
    exact absurd (List.suffix_nil.mp h) (by decide)
  · exact List.append_ne_nil_of_right_ne_nil _ (by decide)

/-- The wire text begins with a line break, or as the message does. -/
theorem head?_wireText (h : (message.map UInt8.toUInt16).head?.any isWsp = false) :
    (wireText message).head?.any isWsp = false := by
  have hbreaks : (wireBreaks (message.map UInt8.toUInt16)).head?.any isWsp = false := by
    generalize message.map UInt8.toUInt16 = s at h ⊢
    fun_cases wireBreaks s with
    | case1 => rfl
    | case2 u hu => rfl
    | case3 u hu => exact h
    | case4 u v s huv => rfl
    | case5 u v s huv hu => rfl
    | case6 u v s huv hu => exact h
  unfold wireText
  dsimp only
  split_ifs
  · exact hbreaks
  · cases hempty : wireBreaks (message.map UInt8.toUInt16) with
    | nil => rfl
    | cons u s =>
      rw [hempty] at hbreaks
      exact hbreaks

theorem breakLines_of_wire (h : Wire s) : breakLines s = s := by
  induction h with
  | nil => rfl
  | unit hcr hlf _ ih => rw [breakLines, if_neg hlf, if_neg fun h => hcr h.1, ih]
  | line _ ih =>
    rw [breakLines, if_neg (by decide), if_pos ⟨rfl, rfl⟩, breakLines, if_pos rfl, ih]
    rfl

theorem toUInt16_latin1 (h : Latin s) : (latin1 s).map UInt8.toUInt16 = s := by
  unfold latin1
  rw [List.map_map]
  refine (List.map_congr_left fun u hu => ?_).trans (List.map_id s)
  have hu := h u hu
  rw [UInt16.lt_iff_toNat_lt] at hu
  refine UInt16.toNat_inj.mp ?_
  show u.toNat % 2 ^ 8 = u.toNat
  exact Nat.mod_eq_of_lt hu

/-- The rows of a header section. -/
def headerRows (headerText : CodeUnits) : List CodeUnits :=
  if headerText = [] then [] else lines 0x0d 0x0a headerText

/-- A wire text is split as it is. -/
theorem splitMessage_wire (hwire : Wire t) (hlatin : Latin t) :
    splitMessage (latin1 t) =
      (((headerRows (splitText t).1).foldl fieldTurn []).map headerField, (splitText t).2) := by
  unfold splitMessage
  rw [toUInt16_latin1 hlatin, breakLines_of_wire hwire]
  rfl

/-! ## The signature in front of a message -/

/-- The lines of a folded field. -/
structure FoldedRows (first : CodeUnits) (more : List CodeUnits) : Prop where
  plain : ∀ row ∈ first :: more, Plain row
  filled : first ≠ []
  space : ∀ row ∈ more, row.head? = some 0x20

section Rows

variable {first rest body : CodeUnits} {more rows : List CodeUnits}

theorem unbroken_of_plain (h : Plain l) : Unbroken 0x0d 0x0a l := fun hbreak =>
  (h 0x0d (hbreak.subset List.mem_cons_self)).1 rfl

theorem FoldedRows.ne_nil (h : FoldedRows first more) : ∀ row ∈ first :: more, row ≠ [] := by
  intro row hrow
  rcases List.mem_cons.mp hrow with rfl | hrow
  · exact h.filled
  · rintro rfl
    have hspace := h.space [] hrow
    cases hspace

theorem not_crlf_prefix (hl : Plain l) (hne : l ≠ []) : ¬crlf <+: l ++ s := by
  obtain ⟨u, l, rfl⟩ := List.exists_cons_of_ne_nil hne
  intro hbegins
  rw [List.cons_append, crlf, List.cons_prefix_cons] at hbegins
  exact (hl u List.mem_cons_self).1 hbegins.1.symm

/-- No empty line is found in a line and its break. -/
theorem cut?_row (hl : Plain l) (hrest : ¬crlf <+: rest) :
    cut? (crlf ++ crlf) (l ++ (crlf ++ rest)) =
      (cut? (crlf ++ crlf) rest).map fun found => (l ++ (crlf ++ found.1), found.2) := by
  induction l with
  | nil =>
    have hhere : ¬crlf ++ crlf <+: 0x0d :: 0x0a :: rest := by
      intro hbegins
      exact hrest (List.cons_prefix_cons.mp (List.cons_prefix_cons.mp hbegins).2).2
    have hnext : ¬crlf ++ crlf <+: 0x0a :: rest := by
      intro hbegins
      exact absurd (List.cons_prefix_cons.mp hbegins).1 (by decide)
    show cut? (crlf ++ crlf) (0x0d :: 0x0a :: rest) = _
    rw [cut?, if_neg hhere, cut?, if_neg hnext, Option.map_map]
    rfl
  | cons u l ih =>
    have hgoes : ¬crlf ++ crlf <+: u :: (l ++ (crlf ++ rest)) := by
      intro hbegins
      exact (hl u List.mem_cons_self).1 (List.cons_prefix_cons.mp hbegins).1.symm
    rw [List.cons_append, cut?, if_neg hgoes, ih fun v hv => hl v (List.mem_cons_of_mem _ hv),
      Option.map_map]
    rfl

theorem cut?_empty (hl : Plain l) (body : CodeUnits) :
    cut? (crlf ++ crlf) (l ++ (crlf ++ (crlf ++ body))) = some (l, body) := by
  induction l with
  | nil =>
    have hhere : crlf ++ crlf <+: 0x0d :: 0x0a :: 0x0d :: 0x0a :: body := ⟨body, rfl⟩
    show cut? (crlf ++ crlf) (0x0d :: 0x0a :: 0x0d :: 0x0a :: body) = _
    rw [cut?, if_pos hhere]
    rfl
  | cons u l ih =>
    have hgoes : ¬crlf ++ crlf <+: u :: (l ++ (crlf ++ (crlf ++ body))) := by
      intro hbegins
      exact (hl u List.mem_cons_self).1 (List.cons_prefix_cons.mp hbegins).1.symm
    rw [List.cons_append, cut?, if_neg hgoes, ih fun v hv => hl v (List.mem_cons_of_mem _ hv)]
    rfl

theorem joinLines_cons_append (l : CodeUnits) (hne : rows ≠ []) (s : CodeUnits) :
    joinLines 0x0d 0x0a (l :: rows) ++ s = l ++ (crlf ++ (joinLines 0x0d 0x0a rows ++ s)) := by
  rw [joinLines_cons l hne, List.append_assoc]
  rfl

theorem not_crlf_rows (hrows : ∀ row ∈ rows, Plain row ∧ row ≠ []) (hne : rows ≠ []) :
    ¬crlf <+: joinLines 0x0d 0x0a rows ++ s := by
  obtain ⟨row, rows, rfl⟩ := List.exists_cons_of_ne_nil hne
  obtain ⟨hplain, hrow⟩ := hrows row List.mem_cons_self
  cases rows with
  | nil =>
    rw [joinLines_singleton]
    exact not_crlf_prefix hplain hrow
  | cons next rows =>
    rw [joinLines_cons_append row (List.cons_ne_nil next rows)]
    exact not_crlf_prefix hplain hrow

theorem cut?_rows (hrows : ∀ row ∈ rows, Plain row ∧ row ≠ []) (hne : rows ≠ []) (hrest : ¬crlf <+: rest) :
    cut? (crlf ++ crlf) (joinLines 0x0d 0x0a rows ++ (crlf ++ rest)) =
      (cut? (crlf ++ crlf) rest).map fun found => (joinLines 0x0d 0x0a rows ++ (crlf ++ found.1), found.2) := by
  induction rows with
  | nil => exact absurd rfl hne
  | cons row rows ih =>
    have hplain := (hrows row List.mem_cons_self).1
    cases rows with
    | nil =>
      rw [joinLines_singleton]
      exact cut?_row hplain hrest
    | cons next rows =>
      have hmore : ∀ r ∈ next :: rows, Plain r ∧ r ≠ [] := fun r hr => hrows r (List.mem_cons_of_mem _ hr)
      have hne := List.cons_ne_nil next rows
      rw [joinLines_cons_append row hne, cut?_row hplain (not_crlf_rows hmore hne), ih hmore hne, Option.map_map]
      refine congrArg₂ Option.map (funext fun found => ?_) rfl
      show (row ++ (crlf ++ (_ ++ (crlf ++ found.1))), found.2) = _
      rw [joinLines_cons_append row hne]

theorem cut?_rows_empty (hrows : ∀ row ∈ rows, Plain row ∧ row ≠ []) (hne : rows ≠ []) (body : CodeUnits) :
    cut? (crlf ++ crlf) (joinLines 0x0d 0x0a rows ++ (crlf ++ (crlf ++ body))) =
      some (joinLines 0x0d 0x0a rows, body) := by
  induction rows with
  | nil => exact absurd rfl hne
  | cons row rows ih =>
    have hplain := (hrows row List.mem_cons_self).1
    cases rows with
    | nil =>
      rw [joinLines_singleton]
      exact cut?_empty hplain body
    | cons next rows =>
      have hmore : ∀ r ∈ next :: rows, Plain r ∧ r ≠ [] := fun r hr => hrows r (List.mem_cons_of_mem _ hr)
      have hne := List.cons_ne_nil next rows
      rw [joinLines_cons_append row hne, cut?_row hplain (not_crlf_rows hmore hne), ih hmore hne, joinLines_cons row hne]
      rfl

theorem lines_rows (hrows : ∀ row ∈ rows, Plain row) (hne : rows ≠ []) (s : CodeUnits) :
    lines 0x0d 0x0a (joinLines 0x0d 0x0a rows ++ (crlf ++ s)) = rows ++ lines 0x0d 0x0a s := by
  induction rows with
  | nil => exact absurd rfl hne
  | cons row rows ih =>
    have hrow := unbroken_of_plain (hrows row List.mem_cons_self)
    cases rows with
    | nil =>
      rw [joinLines_singleton]
      exact lines_append_break (by decide) hrow s
    | cons next rows =>
      rw [joinLines_cons_append row (List.cons_ne_nil next rows)]
      have hmore := ih (fun r hr => hrows r (List.mem_cons_of_mem _ hr)) (List.cons_ne_nil next rows)
      exact (lines_append_break (by decide) hrow _).trans (congrArg (row :: ·) hmore)

/-- The fields after a folded one are those of what follows. -/
theorem foldl_fieldTurn_cons (f : CodeUnits) {fields : List CodeUnits} (hne : fields ≠ []) :
    rows.foldl fieldTurn (f :: fields) = f :: rows.foldl fieldTurn fields := by
  induction rows generalizing fields with
  | nil => rfl
  | cons row rows ih =>
    obtain ⟨front, previous, rfl⟩ := (List.eq_nil_or_concat fields).resolve_left hne
    have hlast : (f :: (front ++ [previous])).getLast? = some previous := by
      rw [← List.cons_append, List.getLast?_concat]
    have hturn : fieldTurn (f :: (front ++ [previous])) row = f :: fieldTurn (front ++ [previous]) row := by
      unfold fieldTurn
      rw [hlast, List.getLast?_concat]
      dsimp only
      split_ifs
      · rw [← List.cons_append, List.dropLast_concat, List.dropLast_concat]
        rfl
      · rfl
    have hgrows : fieldTurn (front ++ [previous]) row ≠ [] := by
      unfold fieldTurn
      rw [List.getLast?_concat]
      dsimp only
      split_ifs
      · exact List.concat_ne_nil _ _
      · exact List.concat_ne_nil _ _
    rw [List.concat_eq_append, List.foldl_cons, hturn, ih hgrows]
    rfl

theorem foldl_fieldTurn_folds (hspace : ∀ row ∈ more, row.head? = some 0x20) (done : List CodeUnits) (hdone : done ≠ []) :
    more.foldl fieldTurn [joinLines 0x0d 0x0a done] = [joinLines 0x0d 0x0a (done ++ more)] := by
  induction more generalizing done with
  | nil => rw [List.append_nil]; rfl
  | cons row more ih =>
    have hrow : row.head?.any isWsp = true := by rw [hspace row List.mem_cons_self]; rfl
    have hturn : fieldTurn [joinLines 0x0d 0x0a done] row = [joinLines 0x0d 0x0a (done ++ [row])] := by
      unfold fieldTurn
      rw [List.getLast?_singleton]
      dsimp only
      rw [if_pos hrow, joinLines_concat hdone, List.append_assoc]
      rfl
    rw [List.foldl_cons, hturn, ih (fun r hr => hspace r (List.mem_cons_of_mem _ hr)) _ (List.concat_ne_nil _ _),
      List.append_assoc]
    rfl

theorem foldl_fieldTurn_signed (h : FoldedRows first more) (hrest : rows.head?.any (fun row => row.head?.any isWsp) = false) :
    (first :: more ++ rows).foldl fieldTurn [] =
      joinLines 0x0d 0x0a (first :: more) :: rows.foldl fieldTurn [] := by
  have hfirst : (first :: more).foldl fieldTurn [] = [joinLines 0x0d 0x0a (first :: more)] := by
    have hfolds := foldl_fieldTurn_folds h.space [first] (List.cons_ne_nil _ _)
    rwa [joinLines_singleton] at hfolds
  rw [List.foldl_append, hfirst]
  cases rows with
  | nil => rfl
  | cons row rows =>
    have hturn : ∀ f : CodeUnits, fieldTurn [f] row = [f, row] := by
      intro f
      have hrest : ¬row.head?.any isWsp = true := Bool.eq_false_iff.mp hrest
      unfold fieldTurn
      rw [List.getLast?_singleton]
      dsimp only
      rw [if_neg hrest]
      rfl
    rw [List.foldl_cons, hturn, foldl_fieldTurn_cons _ (List.cons_ne_nil _ _)]
    rfl

theorem wire_joinLines (hrows : ∀ row ∈ rows, Plain row) : Wire (joinLines 0x0d 0x0a rows) := by
  induction rows with
  | nil => exact .nil
  | cons row rows ih =>
    have hrow := wire_of_plain (hrows row List.mem_cons_self)
    cases rows with
    | nil => rwa [joinLines_singleton]
    | cons next rows =>
      rw [joinLines_cons row (List.cons_ne_nil next rows)]
      exact hrow.append (.line (ih fun r hr => hrows r (List.mem_cons_of_mem _ hr)))

/-- The first of the lines of a text begins as the text does. -/
theorem head?_lines (h : s.head?.any isWsp = false) :
    (lines 0x0d 0x0a s).head?.any (fun row => row.head?.any isWsp) = false := by
  have hjoin := join_lines (0x0d : UInt16) 0x0a s
  obtain ⟨row, rows, hrows⟩ := List.exists_cons_of_ne_nil (lines_ne_nil (0x0d : UInt16) 0x0a s)
  rw [hrows] at hjoin ⊢
  rw [List.head?_cons, Option.any_some]
  cases row with
  | nil => rfl
  | cons u row =>
    rw [← hjoin] at h
    cases rows with
    | nil =>
      rw [joinLines_singleton] at h
      exact h
    | cons next rows =>
      rw [joinLines_cons _ (List.cons_ne_nil next rows)] at h
      exact h

/-- A folded field in front of a wire text is its first field. -/
theorem splitMessage_signed (h : FoldedRows first more) (hwire : Wire t) (hlatin : Latin t) (hne : t ≠ [])
    (hhead : t.head?.any isWsp = false) (hfirst : Latin (joinLines 0x0d 0x0a (first :: more))) :
    splitMessage (latin1 (joinLines 0x0d 0x0a (first :: more) ++ crlf ++ t)) =
      (headerField (joinLines 0x0d 0x0a (first :: more)) :: (splitMessage (latin1 t)).1,
        (splitMessage (latin1 t)).2) := by
  have hrows : ∀ row ∈ first :: more, Plain row ∧ row ≠ [] := fun row hrow => ⟨h.plain row hrow, h.ne_nil row hrow⟩
  have hsome : first :: more ≠ [] := List.cons_ne_nil first more
  have hwhole : Wire (joinLines 0x0d 0x0a (first :: more) ++ crlf ++ t) :=
    ((wire_joinLines h.plain).append wire_crlf).append hwire
  have hbytes : Latin (joinLines 0x0d 0x0a (first :: more) ++ crlf ++ t) := by
    intro u hu
    rcases List.mem_append.mp hu with hu | hu
    · rcases List.mem_append.mp hu with hu | hu
      · exact hfirst u hu
      · exact latin_crlf u hu
    · exact hlatin u hu
  rw [splitMessage_wire hwhole hbytes, splitMessage_wire hwire hlatin, List.append_assoc]
  have hgoes : ¬crlf <+: joinLines 0x0d 0x0a (first :: more) ++ (crlf ++ t) := not_crlf_rows hrows hsome
  have hfilled : joinLines 0x0d 0x0a (first :: more) ≠ [] := by
    intro hnil
    have hbad := not_crlf_rows (s := crlf) hrows hsome
    rw [hnil] at hbad
    exact hbad (List.prefix_refl _)
  by_cases hempty : crlf <+: t
  · -- the message has no header section
    obtain ⟨body, rfl⟩ := hempty
    have hsplit : splitText (crlf ++ body) = ([], body) := if_pos (List.prefix_append ..)
    have hsplit' : splitText (joinLines 0x0d 0x0a (first :: more) ++ (crlf ++ (crlf ++ body))) =
        (joinLines 0x0d 0x0a (first :: more), body) := by
      unfold splitText
      rw [if_neg hgoes, cut?_rows_empty hrows hsome]
      rfl
    have hlines : lines 0x0d 0x0a (joinLines 0x0d 0x0a (first :: more)) = first :: more :=
      lines_join (by decide) hsome fun row hrow => unbroken_of_plain (h.plain row hrow)
    have hfields := foldl_fieldTurn_signed h (show ([] : List CodeUnits).head?.any _ = false from rfl)
    rw [List.append_nil] at hfields
    rw [hsplit, hsplit']
    unfold headerRows
    rw [if_neg hfilled, if_pos rfl, hlines, hfields]
    rfl
  · have hsplit : splitText (joinLines 0x0d 0x0a (first :: more) ++ (crlf ++ t)) =
        (joinLines 0x0d 0x0a (first :: more) ++ (crlf ++ (splitText t).1), (splitText t).2) := by
      unfold splitText
      rw [if_neg hgoes, if_neg hempty, cut?_rows hrows hsome hempty]
      cases cut? (crlf ++ crlf) t <;> rfl
    have hheader : (splitText t).1 ≠ [] := by
      unfold splitText
      rw [if_neg hempty]
      cases hcut : cut? (crlf ++ crlf) t with
      | none => exact hne
      | some found =>
        intro hnil
        have hfirst := (cut?_eq_some.mp hcut).split
        have hnil : found.1 = [] := hnil
        rw [hnil, List.nil_append, List.append_assoc] at hfirst
        exact hempty ⟨crlf ++ found.2, hfirst.symm⟩
    have hbegins : (splitText t).1.head?.any isWsp = false := by
      obtain ⟨u, s, hs⟩ := List.exists_cons_of_ne_nil hheader
      obtain ⟨rest, hrest⟩ := splitText_begins t
      rw [hs] at hrest ⊢
      rw [← hrest] at hhead
      exact hhead
    have hsigned := foldl_fieldTurn_signed h (head?_lines hbegins)
    rw [hsplit]
    unfold headerRows
    rw [if_neg (List.append_ne_nil_of_left_ne_nil hfilled _), if_neg hheader, lines_rows h.plain hsome, hsigned]
    rfl

end Rows

/-! ## Folding -/

/-- A space, with a line break before it or not. -/
def Sep (sep : CodeUnits) : Prop := sep = [0x20] ∨ sep = [0x0d, 0x0a, 0x20]

/-- Nothing, or a line break and a space. -/
def Gap (gap : CodeUnits) : Prop := gap = [] ∨ gap = [0x0d, 0x0a, 0x20]

/-- A tag as it is folded. -/
structure Spec where
  sep : CodeUnits
  name : CodeUnits
  value : CodeUnits

def Spec.text (spec : Spec) : CodeUnits := spec.sep ++ (spec.name ++ 0x3d :: spec.value)

def Spec.pair (spec : Spec) : CodeUnits × CodeUnits := (spec.name, spec.value)

/-- The tag of a name and a value. -/
def tagOf (pair : CodeUnits × CodeUnits) : CodeUnits := pair.1 ++ 0x3d :: pair.2

/-- A tag that is not broken inside. -/
structure PlainTag (pair : CodeUnits × CodeUnits) : Prop where
  plain : Plain (tagOf pair)
  name : 0x3d ∉ pair.1
  notH : pair.1 ≠ of "h"
  notB : pair.1 ≠ of "b"

namespace Folding

variable {st : Folding} {piece value : CodeUnits}

/-- The field so far. -/
def text (st : Folding) : CodeUnits := joinLines 0x0d 0x0a (st.lines ++ [st.line])

/-- Its lines so far. -/
def Folds (st : Folding) : Prop := ∃ first more, st.lines ++ [st.line] = first :: more ∧ FoldedRows first more

theorem text_more (lines : List CodeUnits) (line s : CodeUnits) : text ⟨lines, line ++ s⟩ = text ⟨lines, line⟩ ++ s := by
  unfold text
  cases lines with
  | nil => rw [List.nil_append, List.nil_append, joinLines_singleton, joinLines_singleton]
  | cons first lines =>
    rw [joinLines_concat (List.cons_ne_nil first lines), joinLines_concat (List.cons_ne_nil first lines)]
    simp [List.append_assoc]

theorem text_next (lines : List CodeUnits) (line s : CodeUnits) :
    text ⟨lines ++ [line], s⟩ = text ⟨lines, line⟩ ++ (crlf ++ s) := by
  unfold text
  dsimp only
  rw [joinLines_concat (List.append_ne_nil_of_right_ne_nil _ (List.cons_ne_nil _ _))]
  rfl

/-- A line grows. -/
theorem Folds.more {lines : List CodeUnits} {line : CodeUnits} (h : Folds ⟨lines, line⟩) (hs : Plain s) :
    Folds ⟨lines, line ++ s⟩ := by
  obtain ⟨first, more, hsplit, hrows⟩ := h
  have hgrown : ∀ row : CodeUnits, Plain row → Plain (row ++ s) := by
    intro row hrow u hu
    rcases List.mem_append.mp hu with hu | hu
    · exact hrow u hu
    · exact hs u hu
  cases lines with
  | nil =>
    obtain ⟨rfl, rfl⟩ := List.cons.inj hsplit
    refine ⟨line ++ s, [], rfl, fun row hrow => ?_, List.append_ne_nil_of_left_ne_nil hrows.filled _, by simp⟩
    rw [List.mem_singleton.mp hrow]
    exact hgrown line (hrows.plain line List.mem_cons_self)
  | cons row lines =>
    obtain ⟨rfl, hmore⟩ := List.cons.inj hsplit
    have hline : line ∈ more := hmore ▸ List.mem_append_right _ (List.mem_singleton_self _)
    refine ⟨row, lines ++ [line ++ s], rfl, fun r hr => ?_, hrows.filled, fun r hr => ?_⟩
    · rcases List.mem_append.mp (show r ∈ (row :: lines) ++ [line ++ s] from hr) with hr | hr
      · exact hrows.plain r (hsplit ▸ List.mem_append_left _ hr)
      · rw [List.mem_singleton.mp hr]
        exact hgrown line (hrows.plain line (List.mem_cons_of_mem _ hline))
    · rcases List.mem_append.mp hr with hr | hr
      · exact hrows.space r (hmore ▸ List.mem_append_left _ hr)
      · rw [List.mem_singleton.mp hr, List.head?_append, hrows.space line hline]
        rfl

/-- A line begins. -/
theorem Folds.next {lines : List CodeUnits} {line : CodeUnits} (h : Folds ⟨lines, line⟩) (hs : Plain s) :
    Folds ⟨lines ++ [line], 0x20 :: s⟩ := by
  obtain ⟨first, more, hsplit, hrows⟩ := h
  refine ⟨first, more ++ [0x20 :: s], ?_, fun row hrow => ?_, hrows.filled, fun row hrow => ?_⟩
  · show (lines ++ [line]) ++ [0x20 :: s] = _
    have hsplit : lines ++ [line] = first :: more := hsplit
    rw [hsplit]
    rfl
  · rcases List.mem_append.mp (show row ∈ (first :: more) ++ [0x20 :: s] from hrow) with hrow | hrow
    · exact hrows.plain row hrow
    · rw [List.mem_singleton.mp hrow]
      intro u hu
      rcases List.mem_cons.mp hu with rfl | hu
      · decide
      · exact hs u hu
  · rcases List.mem_append.mp hrow with hrow | hrow
    · exact hrows.space row hrow
    · rw [List.mem_singleton.mp hrow]
      rfl

/-- What one tag after another becomes: text with breaks in it, in folded lines. -/
structure Grows (st st' : Folding) (s : CodeUnits) : Prop where
  text : st'.text = st.text ++ s
  folds : Folds st → Folds st'

theorem Grows.trans {st₁ st₂ st₃ : Folding} (h : Grows st₁ st₂ s) (h' : Grows st₂ st₃ t) : Grows st₁ st₃ (s ++ t) :=
  ⟨by rw [h'.text, h.text, List.append_assoc], fun hf => h'.folds (h.folds hf)⟩

theorem Grows.refl (st : Folding) : Grows st st [] := ⟨(List.append_nil _).symm, id⟩

theorem plain_cons_space (h : Plain s) : Plain (0x20 :: s) := by
  intro u hu
  rcases List.mem_cons.mp hu with rfl | hu
  · decide
  · exact h u hu

theorem append_cases (st : Folding) (piece : CodeUnits) (spaced : Bool) :
    st.append piece spaced = ⟨st.lines ++ [st.line], 0x20 :: piece⟩ ∨
      st.append piece spaced = ⟨st.lines, st.line ++ if spaced then 0x20 :: piece else piece⟩ := ite_eq_or_eq ..

theorem grows_spaced (st : Folding) (h : Plain piece) : ∃ sep, Sep sep ∧ Grows st (st.append piece true) (sep ++ piece) := by
  rcases append_cases st piece true with he | he
  · rw [he]
    exact ⟨[0x0d, 0x0a, 0x20], .inr rfl, text_next st.lines st.line _, fun hf => hf.next h⟩
  · rw [he]
    exact ⟨[0x20], .inl rfl, text_more st.lines st.line _, fun hf => hf.more (plain_cons_space h)⟩

theorem grows_bare (st : Folding) (h : Plain piece) : ∃ gap, Gap gap ∧ Grows st (st.append piece false) (gap ++ piece) := by
  rcases append_cases st piece false with he | he
  · rw [he]
    exact ⟨[0x0d, 0x0a, 0x20], .inr rfl, text_next st.lines st.line _, fun hf => hf.next h⟩
  · rw [he]
    exact ⟨[], .inl rfl, text_more st.lines st.line _, fun hf => hf.more h⟩

/-- The value with line breaks and spaces in it. -/
structure Broken (value broken : CodeUnits) : Prop where
  strip : stripFws broken = stripFws value
  mem : ∀ u ∈ broken, u ∈ value ∨ u = 0x0d ∨ u = 0x0a ∨ u = 0x20

theorem stripFws_append (a b : CodeUnits) : stripFws (a ++ b) = stripFws a ++ stripFws b := List.filter_append ..

theorem Broken.nil : Broken [] [] := ⟨rfl, fun _ hu => absurd hu List.not_mem_nil⟩

theorem Broken.cut {a b broken : CodeUnits} (h : Broken b broken) : Broken (a ++ b) (a ++ broken) := by
  constructor
  · rw [stripFws_append, stripFws_append, h.strip]
  · intro u hu
    rcases List.mem_append.mp hu with hu | hu
    · exact .inl (List.mem_append_left _ hu)
    · exact (h.mem u hu).imp_left fun hu => List.mem_append_right _ hu

theorem Broken.gap {b broken : CodeUnits} (h : Broken b broken) : Broken b (crlf ++ [0x20] ++ broken) := by
  constructor
  · rw [stripFws_append, h.strip]
    rfl
  · intro u hu
    rcases List.mem_append.mp hu with hu | hu
    · right
      simpa [crlf] using hu
    · exact h.mem u hu

/-- The turns left of `appendBase64`. -/
def turnsLeft (st : Folding) (rest : CodeUnits) : ℕ :=
  if st.line.length < FOLD_AT then 2 * rest.length - 1 else 2 * rest.length

/-- With a turn for each line and each piece the loop comes to its end. -/
theorem grows_fill (turns : ℕ) (st : Folding) (rest : CodeUnits) (hturns : turnsLeft st rest ≤ turns) (h : Plain rest) :
    ∃ broken, Broken rest broken ∧ Grows st (st.fill turns rest) broken := by
  induction turns generalizing st rest with
  | zero =>
    have hnil : rest = [] := by
      rw [← List.length_eq_zero_iff]
      unfold turnsLeft at hturns
      split_ifs at hturns with hline
      · omega
      · omega
    rw [hnil]
    exact ⟨[], .nil, .refl st⟩
  | succ turns ih =>
    rw [fill]
    by_cases hnil : rest = []
    · rw [if_pos hnil, hnil]
      exact ⟨[], .nil, .refl st⟩
    have hpos := List.length_pos_iff.mpr hnil
    rw [if_neg hnil]
    unfold turnsLeft at hturns
    split_ifs with hfull
    · -- a line begins
      have hshort : turnsLeft ⟨st.lines ++ [st.line], [0x20]⟩ rest ≤ turns := by
        unfold turnsLeft
        rw [if_neg (by omega)] at hturns
        rw [if_pos (show [(0x20 : UInt16)].length < FOLD_AT by decide)]
        omega
      obtain ⟨broken, hbroken, hgrows⟩ := ih ⟨st.lines ++ [st.line], [0x20]⟩ rest hshort h
      have hstep : Grows st ⟨st.lines ++ [st.line], [0x20]⟩ (crlf ++ [0x20]) :=
        ⟨text_next st.lines st.line _, fun hf => hf.next (by intro u hu; cases hu)⟩
      exact ⟨_, hbroken.gap, hstep.trans hgrows⟩
    · -- the line is filled
      have hroom : 0 < FOLD_AT - st.line.length := by omega
      dsimp only
      have hshort : turnsLeft ⟨st.lines, st.line ++ rest.take (FOLD_AT - st.line.length)⟩
          (rest.drop (FOLD_AT - st.line.length)) ≤ turns := by
        rw [if_pos (by omega)] at hturns
        unfold turnsLeft
        rw [List.length_drop]
        split_ifs
        · omega
        · omega
      have hrest : Plain (rest.drop (FOLD_AT - st.line.length)) := fun u hu => h u (List.mem_of_mem_drop hu)
      obtain ⟨broken, hbroken, hgrows⟩ := ih _ _ hshort hrest
      have hstep : Grows st ⟨st.lines, st.line ++ rest.take (FOLD_AT - st.line.length)⟩
          (rest.take (FOLD_AT - st.line.length)) :=
        ⟨text_more st.lines st.line _, fun hf => hf.more fun u hu => h u (List.mem_of_mem_take hu)⟩
      have hcut := hbroken.cut (a := rest.take (FOLD_AT - st.line.length))
      rw [List.take_append_drop] at hcut
      exact ⟨_, hcut, hstep.trans hgrows⟩

theorem grows_base64 (st : Folding) (h : Plain value) :
    ∃ broken, Broken value broken ∧ Grows st (st.appendBase64 value) broken := by
  refine grows_fill _ st value ?_ h
  unfold turnsLeft
  split_ifs
  · omega
  · exact le_rfl

/-- The entry after a line break and a space, or not. -/
def Gapped (entry part : CodeUnits) : Prop := ∃ gap, Gap gap ∧ part = gap ++ entry

theorem plain_append {a b : CodeUnits} (ha : Plain a) (hb : Plain b) : Plain (a ++ b) := by
  intro u hu
  rcases List.mem_append.mp hu with hu | hu
  · exact ha u hu
  · exact hb u hu

theorem grows_entries (st : Folding) {entry : CodeUnits} {entries : List CodeUnits}
    (h : ∀ e ∈ entry :: entries, Plain e) : ∃ parts, List.Forall₂ Gapped (entry :: entries) parts ∧
      Grows st (appendEntries false st false (entry :: entries)) ([0x3a].intercalate parts ++ [0x3b]) := by
  induction entries generalizing st entry with
  | nil =>
    have hpiece : Plain ([] ++ entry ++ [0x3b]) := plain_append (h entry List.mem_cons_self) (by decide)
    obtain ⟨gap, hgap, hgrows⟩ := grows_bare st hpiece
    refine ⟨[gap ++ entry], .cons ⟨gap, hgap, rfl⟩ .nil, ?_⟩
    rw [List.intercalate_singleton, List.append_assoc]
    exact hgrows
  | cons next entries ih =>
    have hpiece : Plain ([] ++ entry ++ [0x3a]) := plain_append (h entry List.mem_cons_self) (by decide)
    obtain ⟨gap, hgap, hgrows⟩ := grows_bare st hpiece
    have hrest : ∀ e ∈ next :: entries, Plain e := fun e he => h e (List.mem_cons_of_mem _ he)
    obtain ⟨parts, hparts, hmore⟩ := ih (st.append ([] ++ entry ++ [0x3a]) false) hrest
    refine ⟨(gap ++ entry) :: parts, .cons ⟨gap, hgap, rfl⟩ hparts, ?_⟩
    have hne : parts ≠ [] := by
      rintro rfl
      cases hparts
    obtain ⟨part, parts, rfl⟩ := List.exists_cons_of_ne_nil hne
    rw [List.intercalate_cons_cons]
    have hall := hgrows.trans hmore
    simp only [List.nil_append, List.append_assoc] at hall ⊢
    exact hall

/-- The tag `h`. -/
theorem grows_h (st : Folding) {entry : CodeUnits} {entries : List CodeUnits}
    (h : ∀ e ∈ entry :: entries, Plain e) : ∃ sep parts, Sep sep ∧ List.Forall₂ Gapped entries parts ∧
      Grows st (appendEntries false st true (entry :: entries))
        (sep ++ (of "h=" ++ [0x3a].intercalate (entry :: parts)) ++ [0x3b]) := by
  have hentry := h entry List.mem_cons_self
  have hh : Plain (of "h=") := by decide
  cases entries with
  | nil =>
    obtain ⟨sep, hsep, hgrows⟩ := grows_spaced st (plain_append (plain_append hh hentry) (show Plain [0x3b] by decide))
    refine ⟨sep, [], hsep, .nil, ?_⟩
    rw [List.intercalate_singleton, List.append_assoc]
    exact hgrows
  | cons next entries =>
    obtain ⟨sep, hsep, hgrows⟩ := grows_spaced st (plain_append (plain_append hh hentry) (show Plain [0x3a] by decide))
    obtain ⟨parts, hparts, hmore⟩ := grows_entries (st.append (of "h=" ++ entry ++ [0x3a]) true)
      fun e he => h e (List.mem_cons_of_mem _ he)
    refine ⟨sep, parts, hsep, hparts, ?_⟩
    have hne : parts ≠ [] := by
      rintro rfl
      cases hparts
    obtain ⟨part, parts, rfl⟩ := List.exists_cons_of_ne_nil hne
    rw [List.intercalate_cons_cons]
    have hall := hgrows.trans hmore
    simp only [List.append_assoc] at hall ⊢
    exact hall

theorem cut?_tag {name : CodeUnits} (h : 0x3d ∉ name) (value : CodeUnits) :
    cut? [0x3d] (name ++ 0x3d :: value) = some (name, value) :=
  cut?_eq_some.mpr (firstCut_singleton.mpr ⟨rfl, h⟩)

theorem appendTag_plain (st : Folding) {pair : CodeUnits × CodeUnits} (h : PlainTag pair) :
    st.appendTag (tagOf pair) false = st.append (tagOf pair ++ [0x3b]) true := by
  unfold appendTag
  rw [tagOf, cut?_tag h.name]
  dsimp only [Option.getD_some]
  rw [if_neg h.notH, if_neg h.notB]
  rfl

theorem grows_tags (st : Folding) {pairs : List (CodeUnits × CodeUnits)} (h : ∀ pair ∈ pairs, PlainTag pair) :
    ∃ specs : List Spec, specs.map Spec.pair = pairs ∧ (∀ spec ∈ specs, Sep spec.sep) ∧
      Grows st ((pairs.map tagOf).foldl (fun st tag => st.appendTag tag false) st)
        (specs.flatMap fun spec => spec.text ++ [0x3b]) := by
  induction pairs generalizing st with
  | nil => exact ⟨[], rfl, fun spec hspec => absurd hspec List.not_mem_nil, .refl st⟩
  | cons pair pairs ih =>
    have hpair := h pair List.mem_cons_self
    have hpiece : Plain (tagOf pair ++ [0x3b]) := plain_append hpair.plain (by decide)
    obtain ⟨sep, hsep, hgrows⟩ := grows_spaced st hpiece
    obtain ⟨specs, hpairs, hseps, hmore⟩ := ih (st.append (tagOf pair ++ [0x3b]) true)
      fun p hp => h p (List.mem_cons_of_mem _ hp)
    refine ⟨⟨sep, pair.1, pair.2⟩ :: specs, by rw [List.map_cons, hpairs]; rfl, fun spec hspec => ?_, ?_⟩
    · rcases List.mem_cons.mp hspec with rfl | hspec
      · exact hsep
      · exact hseps spec hspec
    · have hall := hgrows.trans hmore
      rw [List.map_cons, List.foldl_cons, appendTag_plain st hpair, List.flatMap_cons]
      show Grows st _ (sep ++ tagOf pair ++ [0x3b] ++ _)
      rw [List.append_assoc sep]
      exact hall

theorem appendTags_concat (st : Folding) (tags : List CodeUnits) (tag : CodeUnits) :
    st.appendTags (tags ++ [tag]) = (tags.foldl (fun st tag => st.appendTag tag false) st).appendTag tag true := by
  induction tags generalizing st with
  | nil => rfl
  | cons first tags ih =>
    have hmore : decide (tags ++ [tag] = []) = false :=
      decide_eq_false (List.append_ne_nil_of_right_ne_nil _ (List.cons_ne_nil _ _))
    rw [List.cons_append, appendTags, hmore, ih]
    rfl

/-- The field of a list of tags with `h=` and `b=` at the end. -/
theorem foldSignature_spec {pairs : List (CodeUnits × CodeUnits)} {entry : CodeUnits} {entries : List CodeUnits}
    (hpairs : ∀ pair ∈ pairs, PlainTag pair) (hentries : ∀ e ∈ entry :: entries, Plain e ∧ 0x3a ∉ e) :
    ∃ specs sep parts sep', specs.map Spec.pair = pairs ∧ (∀ spec ∈ specs, Sep spec.sep) ∧ Sep sep ∧
      List.Forall₂ Gapped entries parts ∧ Sep sep' ∧ ∀ value, Plain value → ∃ broken, Broken value broken ∧
        ∃ first more, FoldedRows first more ∧
          foldSignature (pairs.map tagOf ++ [of "h=" ++ [0x3a].intercalate (entry :: entries)] ++
            [of "b=" ++ value]) = joinLines 0x0d 0x0a (first :: more) ∧
          joinLines 0x0d 0x0a (first :: more) = of "DKIM-Signature:" ++
            ((specs ++ [⟨sep, of "h", [0x3a].intercalate (entry :: parts)⟩]).flatMap
              (fun spec => spec.text ++ [0x3b]) ++ (sep' ++ (of "b=" ++ broken))) := by
  obtain ⟨specs, hmap, hseps, htags⟩ := grows_tags ⟨[], of "DKIM-Signature:"⟩ hpairs
  generalize hst : List.foldl (fun (st : Folding) tag => st.appendTag tag false) _ (pairs.map tagOf) = st at htags
  obtain ⟨sep, parts, hsep, hparts, hh⟩ := grows_h st fun e he => (hentries e he).1
  obtain ⟨sep', hsep', hb⟩ := grows_spaced (appendEntries false st true (entry :: entries))
    (show Plain (of "b=") by decide)
  refine ⟨specs, sep, parts, sep', hmap, hseps, hsep, hparts, hsep', fun value hvalue => ?_⟩
  obtain ⟨broken, hbroken, hfill⟩ :=
    grows_base64 ((appendEntries false st true (entry :: entries)).append (of "b=") true) hvalue
  have hall := ((htags.trans hh).trans hb).trans hfill
  have hstart : Folds ⟨[], of "DKIM-Signature:"⟩ := by
    refine ⟨of "DKIM-Signature:", [], rfl, fun row hrow => ?_, by decide, by simp⟩
    rw [List.mem_singleton.mp hrow]
    decide
  obtain ⟨first, more, hsplit, hrows⟩ := hall.folds hstart
  have hlist : ([0x3a].intercalate (entry :: entries)).splitOn 0x3a = entry :: entries :=
    List.splitOn_intercalate 0x3a (fun e he => (hentries e he).2) (List.cons_ne_nil entry entries)
  have htagH : st.appendTag (of "h=" ++ [0x3a].intercalate (entry :: entries)) false =
      appendEntries false st true (entry :: entries) := by
    have hcut := cut?_tag (show 0x3d ∉ of "h" by decide) ([0x3a].intercalate (entry :: entries))
    unfold appendTag
    rw [show of "h=" ++ [0x3a].intercalate (entry :: entries) =
      of "h" ++ 0x3d :: [0x3a].intercalate (entry :: entries) from rfl, hcut]
    dsimp only [Option.getD_some]
    rw [if_pos rfl, hlist]
  have htagB : ∀ st : Folding, st.appendTag (of "b=" ++ value) true =
      (st.append (of "b=") true).appendBase64 value := by
    intro st
    have hcut := cut?_tag (show 0x3d ∉ of "b" by decide) value
    unfold appendTag
    rw [show of "b=" ++ value = of "b" ++ 0x3d :: value from rfl, hcut]
    dsimp only [Option.getD_some]
    rw [if_neg (by decide), if_pos rfl]
  have hfold : foldSignature (pairs.map tagOf ++ [of "h=" ++ [0x3a].intercalate (entry :: entries)] ++
      [of "b=" ++ value]) =
      (((appendEntries false st true (entry :: entries)).append (of "b=") true).appendBase64 value).text := by
    unfold foldSignature
    rw [appendTags_concat, List.foldl_append, hst, List.foldl_cons, List.foldl_nil, htagH, htagB]
    rfl
  refine ⟨broken, hbroken, first, more, hrows, hfold.trans (congrArg _ hsplit), ?_⟩
  rw [← hsplit]
  refine hall.text.trans ?_
  rw [show (⟨[], of "DKIM-Signature:"⟩ : Folding).text = of "DKIM-Signature:" from joinLines_singleton _,
    List.flatMap_append]
  simp only [List.flatMap_cons, List.flatMap_nil, List.append_nil, List.append_assoc, Spec.text]
  rfl

end Folding

end BunMail.Emails.DkimSigner
