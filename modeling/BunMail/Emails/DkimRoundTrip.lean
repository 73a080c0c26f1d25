import Mathlib
import BunMail.Emails.DkimFolding

/-!
# What BunMail signs verifies

The verifier reads the tags that were folded, and computes the data that was signed: what folding adds
goes where a tag list, `h=`, `b=` and the relaxed form drop it.
-/

namespace BunMail.Emails.DkimSigner

open CodeUnits Lines Inbound.DkimCanonical Inbound.DkimVerifier Folding

variable {u : UInt16} {s t name value broken : CodeUnits}

/-! ## Characters -/

theorem fws_of_sep {sep : CodeUnits} (h : Sep sep) : ∀ u ∈ sep, isFws u = true := by
  rcases h with rfl | rfl <;> decide

/-- The characters of a name. -/
def isTagUnit (u : UInt16) : Bool := isLetter u || isDigit u || u == 0x5f

theorem tagUnit_of_name (h : isTagName name = true) : name ≠ [] ∧ ∀ u ∈ name, isTagUnit u = true := by
  unfold isTagName at h
  rw [Bool.and_eq_true, List.all_eq_true] at h
  refine ⟨?_, h.2⟩
  rintro rfl
  exact absurd h.1 (by decide)

theorem isTagUnit_spec (h : isTagUnit u = true) : isFws u = false ∧ u ≠ 0x3d ∧ u ≠ 0x3b ∧ u ≠ 0x3a := by
  unfold isTagUnit isLetter isDigit at h
  unfold isFws
  grind

theorem not_wsp (h : isFws u = false) : isWsp u = false ∧ u ≠ 0x0d ∧ u ≠ 0x0a := by
  unfold isFws at h
  unfold isWsp
  grind

theorem trimFws_solid (h : ∀ u ∈ s, isFws u = false) : trimFws s = s :=
  stripEnds_of_solid ⟨fun u hu => h u (List.mem_of_mem_head? hu), fun u hu => h u (List.mem_of_getLast? hu)⟩

theorem stripFws_solid (h : ∀ u ∈ s, isFws u = false) : stripFws s = s :=
  List.filter_eq_self.mpr fun u hu => by rw [h u hu]; rfl

theorem stripFws_trimFws (s : CodeUnits) : stripFws (trimFws s) = stripFws s := by
  obtain ⟨a, b, hsplit, ha, hb⟩ := exists_stripEnds isFws s
  have hnone : ∀ w : CodeUnits, (∀ u ∈ w, isFws u = true) → stripFws w = [] := fun w hw =>
    List.filter_eq_nil_iff.mpr fun u hu => by rw [hw u hu]; simp
  have hcore : stripFws (stripEnds isFws s) = stripFws s := by
    conv_rhs => rw [hsplit]
    rw [stripFws_append, stripFws_append, hnone a ha, hnone b hb, List.nil_append, List.append_nil]
  exact hcore

/-! ## Reading the tags -/

variable {sep : CodeUnits} {specs : List Spec} {tags : Tags}

/-- One tag. -/
theorem parseSpecs_cons {texts : List CodeUnits} (hsep : ∀ u ∈ sep, isFws u = true) (hname : isTagName name = true)
    (hnew : tags.lookup name = none) (hgood : ∀ u ∈ value, badTagValueChar u = false) :
    parseSpecs ((sep ++ (name ++ 0x3d :: value)) :: texts) tags =
      parseSpecs texts (tags ++ [(name, trimFws value)]) := by
  obtain ⟨hne, hunits⟩ := tagUnit_of_name hname
  have hfull : trimFws (sep ++ (name ++ 0x3d :: value)) ≠ [] := by
    intro hnil
    have hall := stripEnds_eq_nil.mp hnil 0x3d
      (List.mem_append_right _ (List.mem_append_right _ List.mem_cons_self))
    exact absurd hall (by decide)
  have hequals : 0x3d ∉ sep ++ name := by
    intro hmem
    rcases List.mem_append.mp hmem with hmem | hmem
    · exact absurd (hsep _ hmem) (by decide)
    · exact (isTagUnit_spec (hunits _ hmem)).2.1 rfl
  have hcut := cut?_tag hequals value
  rw [List.append_assoc] at hcut
  have hsolid : Solid isFws name :=
    ⟨fun u hu => (isTagUnit_spec (hunits u (List.mem_of_mem_head? hu))).1,
      fun u hu => (isTagUnit_spec (hunits u (List.mem_of_getLast? hu))).1⟩
  have htrim : trimFws (sep ++ name) = name := by
    have happend := stripEnds_append hsep hsolid (b := []) fun u hu => absurd hu List.not_mem_nil
    rwa [List.append_nil] at happend
  have hvalue : (trimFws value).any badTagValueChar = false :=
    List.any_eq_false.mpr fun u hu => by
      rw [hgood u ((stripEnds_sublist isFws value).subset hu)]
      exact Bool.false_ne_true
  rw [parseSpecs, if_neg hfull, hcut]
  dsimp only
  rw [htrim, hname, hnew, hvalue]
  rfl

/-- What a tag needs to be read. -/
structure Spec.Readable (spec : Spec) : Prop where
  sep : Sep spec.sep
  name : isTagName spec.name = true
  value : ∀ u ∈ spec.value, badTagValueChar u = false

theorem lookup_eq_none {l : Tags} (h : name ∉ l.map Prod.fst) : l.lookup name = none := by
  rw [List.lookup_eq_none_iff]
  intro p hp
  rw [bne_iff_ne]
  rintro rfl
  exact h (List.mem_map_of_mem hp)

theorem lookup_of_mem {l : Tags} (hnodup : (l.map Prod.fst).Nodup) (h : (name, value) ∈ l) :
    l.lookup name = some value := by
  induction l with
  | nil => cases h
  | cons p l ih =>
    obtain ⟨hout, hnodup⟩ := List.nodup_cons.mp hnodup
    rcases List.mem_cons.mp h with rfl | h
    · rw [List.lookup_cons_self]
    · have hne : (name == p.1) = false := by
        rw [beq_eq_false_iff_ne]
        rintro rfl
        exact hout (List.mem_map.mpr ⟨_, h, rfl⟩)
      rw [List.lookup_cons, hne]
      exact ih hnodup h

theorem parseSpecs_specs (hspecs : ∀ spec ∈ specs, spec.Readable)
    (hnodup : (tags.map Prod.fst ++ specs.map Spec.name).Nodup) :
    parseSpecs (specs.map Spec.text) tags =
      some (tags ++ specs.map fun spec => (spec.name, trimFws spec.value)) := by
  induction specs generalizing tags with
  | nil => rw [List.map_nil, List.map_nil, List.append_nil, parseSpecs]
  | cons spec specs ih =>
    have hspec := hspecs spec List.mem_cons_self
    have hnew : spec.name ∉ tags.map Prod.fst := by
      intro hmem
      exact (List.nodup_append.mp hnodup).2.2 _ hmem _ List.mem_cons_self rfl
    have hmore : ((tags ++ [(spec.name, trimFws spec.value)]).map Prod.fst ++ specs.map Spec.name).Nodup := by
      rw [List.map_append, List.append_assoc]
      exact hnodup
    rw [List.map_cons, Spec.text, parseSpecs_cons (fws_of_sep hspec.sep) hspec.name (lookup_eq_none hnew) hspec.value,
      ih (fun s hs => hspecs s (List.mem_cons_of_mem _ hs)) hmore, List.append_assoc]
    rfl

theorem flatMap_eq_intercalate (x : UInt16) (parts : List CodeUnits) (last : CodeUnits) :
    parts.flatMap (· ++ [x]) ++ last = [x].intercalate (parts ++ [last]) := by
  induction parts with
  | nil => exact List.intercalate_singleton.symm
  | cons part parts ih =>
    have hne : parts ++ [last] ≠ [] := List.append_ne_nil_of_right_ne_nil _ (List.cons_ne_nil _ _)
    obtain ⟨next, rest, hrest⟩ := List.exists_cons_of_ne_nil hne
    rw [List.flatMap_cons, List.append_assoc, ih, List.cons_append, hrest, List.intercalate_cons_cons]

theorem splitOn_closed {x : UInt16} {parts : List CodeUnits} {last : CodeUnits} (hparts : ∀ part ∈ parts, x ∉ part)
    (hlast : x ∉ last) : (parts.flatMap (· ++ [x]) ++ last).splitOn x = parts ++ [last] := by
  rw [flatMap_eq_intercalate]
  refine List.splitOn_intercalate x (fun l hl => ?_) (List.append_ne_nil_of_right_ne_nil _ (List.cons_ne_nil _ _))
  rcases List.mem_append.mp hl with hl | hl
  · exact hparts l hl
  · rw [List.mem_singleton.mp hl]
    exact hlast

/-- A readable tag has no semicolon. -/
theorem Spec.Readable.noSemicolon {spec : Spec} (h : spec.Readable) : 0x3b ∉ spec.text := by
  intro hmem
  rcases List.mem_append.mp hmem with hmem | hmem
  · exact absurd (fws_of_sep h.sep _ hmem) (by decide)
  · rcases List.mem_append.mp hmem with hmem | hmem
    · exact (isTagUnit_spec ((tagUnit_of_name h.name).2 _ hmem)).2.2.1 rfl
    · rcases List.mem_cons.mp hmem with hmem | hmem
      · exact absurd hmem (by decide)
      · exact absurd (h.value _ hmem) (by decide)

theorem parseTagList_specs {last : Spec} (hspecs : ∀ spec ∈ specs ++ [last], spec.Readable)
    (hnodup : ((specs ++ [last]).map Spec.name).Nodup) :
    parseTagList (specs.flatMap (fun (spec : Spec) => spec.text ++ [0x3b]) ++ last.text) =
      some ((specs ++ [last]).map fun spec => (spec.name, trimFws spec.value)) := by
  have hsplit : (specs.flatMap (fun (spec : Spec) => spec.text ++ [0x3b]) ++ last.text).splitOn 0x3b =
      (specs ++ [last]).map Spec.text := by
    have hparts : ∀ part ∈ specs.map Spec.text, 0x3b ∉ part := by
      intro part hpart
      obtain ⟨spec, hspec, rfl⟩ := List.mem_map.mp hpart
      exact (hspecs spec (List.mem_append_left _ hspec)).noSemicolon
    have hall := splitOn_closed hparts
      (hspecs last (List.mem_append_right _ (List.mem_singleton_self _))).noSemicolon
    rw [List.flatMap_map] at hall
    rw [hall, List.map_append]
    rfl
  unfold parseTagList
  rw [hsplit, parseSpecs_specs hspecs (by simpa using hnodup)]
  rfl

/-! ## The data -/

/-- Unfolded, and with single spaces. -/
def relax (s : CodeUnits) : CodeUnits := reduceWsp (Inbound.DkimCanonical.unfold s)

theorem relax_append (h : isFws u = false) (s t : CodeUnits) : relax (s ++ u :: t) = relax s ++ u :: relax t := by
  obtain ⟨hwsp, hcr, hlf⟩ := not_wsp h
  have hnot : ¬isWsp u = true := Bool.eq_false_iff.mp hwsp
  unfold relax
  rw [unfold_append hcr hlf, reduceWsp_append (by rw [List.head?_cons, Option.any_some, hwsp]), reduceWsp, if_neg hnot]

theorem relax_solid (h : ∀ u ∈ s, isFws u = false) (t : CodeUnits) : relax (s ++ t) = s ++ relax t := by
  induction s with
  | nil => rfl
  | cons u s ih =>
    have hhere := relax_append (h u List.mem_cons_self) [] (s ++ t)
    rw [List.nil_append] at hhere
    rw [List.cons_append, hhere, ih fun v hv => h v (List.mem_cons_of_mem _ hv)]
    rfl

theorem mem_relax (h : u ∈ relax s) : u = 0x20 ∨ u ∈ s := (mem_reduceWsp h).imp_right mem_unfold

/-- A tag in its relaxed form, after its space. -/
def Spec.bare (spec : Spec) : CodeUnits := spec.name ++ 0x3d :: relax spec.value

/-- What a tag needs to keep its place in the relaxed form. -/
structure Spec.Placed (spec : Spec) : Prop where
  sep : Sep spec.sep
  name : isTagName spec.name = true
  value : 0x3b ∉ spec.value

theorem Spec.Placed.relax {spec : Spec} (h : spec.Placed) (t : CodeUnits) :
    relax (spec.text ++ 0x3b :: t) = 0x20 :: spec.bare ++ 0x3b :: DkimSigner.relax t := by
  obtain ⟨hne, hunits⟩ := tagUnit_of_name h.name
  have hsolid : ∀ u ∈ spec.name, isFws u = false := fun u hu => (isTagUnit_spec (hunits u hu)).1
  obtain ⟨first, rest, hfirst⟩ := List.exists_cons_of_ne_nil hne
  have hspace : DkimSigner.relax spec.sep = [0x20] := by rcases h.sep with hsep | hsep <;> rw [hsep] <;> decide
  have hname : DkimSigner.relax spec.text = 0x20 :: spec.bare := by
    have hu := hsolid first (by rw [hfirst]; exact List.mem_cons_self)
    have hrest : ∀ u ∈ rest, isFws u = false := fun u hu =>
      hsolid u (by rw [hfirst]; exact List.mem_cons_of_mem _ hu)
    have hvalue := relax_append (u := 0x3d) (by decide) [] spec.value
    rw [List.nil_append] at hvalue
    unfold Spec.text Spec.bare
    rw [hfirst, List.cons_append, relax_append hu, hspace, relax_solid hrest, hvalue]
    rfl
  rw [relax_append (by decide), hname]

theorem relax_specs (hspecs : ∀ spec ∈ specs, spec.Placed) (t : CodeUnits) :
    relax (specs.flatMap (fun (spec : Spec) => spec.text ++ [0x3b]) ++ t) =
      specs.flatMap (fun (spec : Spec) => 0x20 :: spec.bare ++ [0x3b]) ++ relax t := by
  induction specs with
  | nil => rfl
  | cons spec specs ih =>
    have hhere := (hspecs spec List.mem_cons_self).relax (specs.flatMap (fun (spec : Spec) => spec.text ++ [0x3b]) ++ t)
    rw [ih fun s hs => hspecs s (List.mem_cons_of_mem _ hs)] at hhere
    simp only [List.flatMap_cons, List.append_assoc, List.cons_append, List.nil_append] at hhere ⊢
    exact hhere

/-- A tag that is not `b` is not emptied. -/
theorem emptyTag_cons {segments : List CodeUnits} (hsep : ∀ u ∈ sep, isFws u = true) (hname : isTagName name = true)
    (hb : name ≠ of "b") : emptyTag ((sep ++ (name ++ 0x3d :: value)) :: segments) =
      (sep ++ (name ++ 0x3d :: value)) :: emptyTag segments := by
  obtain ⟨-, hunits⟩ := tagUnit_of_name hname
  have hequals : 0x3d ∉ sep ++ name := by
    intro hmem
    rcases List.mem_append.mp hmem with hmem | hmem
    · exact absurd (hsep _ hmem) (by decide)
    · exact (isTagUnit_spec (hunits _ hmem)).2.1 rfl
  have hcut := cut?_tag hequals value
  rw [List.append_assoc] at hcut
  have hsolid : Solid isFws name :=
    ⟨fun u hu => (isTagUnit_spec (hunits u (List.mem_of_mem_head? hu))).1,
      fun u hu => (isTagUnit_spec (hunits u (List.mem_of_getLast? hu))).1⟩
  have htrim : trimFws (sep ++ name) = name := by
    have happend := stripEnds_append hsep hsolid (b := []) fun u hu => absurd hu List.not_mem_nil
    rwa [List.append_nil] at happend
  rw [emptyTag, hcut]
  dsimp only
  rw [htrim, if_neg hb]

theorem emptyTag_append {parts segments : List CodeUnits} (h : ∀ part ∈ parts, ∃ sep name value,
    part = sep ++ (name ++ 0x3d :: value) ∧ (∀ u ∈ sep, isFws u = true) ∧ isTagName name = true ∧ name ≠ of "b") :
    emptyTag (parts ++ segments) = parts ++ emptyTag segments := by
  induction parts with
  | nil => rfl
  | cons part parts ih =>
    obtain ⟨sep, name, value, rfl, hsep, hname, hb⟩ := h _ List.mem_cons_self
    rw [List.cons_append, emptyTag_cons hsep hname hb, ih fun p hp => h p (List.mem_cons_of_mem _ hp)]
    rfl

theorem stripEnds_append_cons {p : UInt16 → Bool} (hu : p u = false) (s t : CodeUnits) :
    stripEnds p (s ++ u :: t) = s.dropWhile p ++ u :: t.rdropWhile p := by
  have hnot : ¬p u = true := Bool.eq_false_iff.mp hu
  have hleft : (s ++ u :: t).dropWhile p = s.dropWhile p ++ u :: t := by
    rw [List.dropWhile_append]
    split_ifs with hnil
    · rw [List.isEmpty_iff.mp hnil, List.dropWhile_cons_of_neg hnot]
      rfl
    · rfl
  unfold stripEnds
  rw [hleft]
  unfold List.rdropWhile
  rw [List.reverse_append, List.reverse_cons, List.append_assoc, List.dropWhile_append]
  split_ifs with hnil
  · rw [List.isEmpty_iff.mp hnil, List.singleton_append, List.dropWhile_cons_of_neg hnot]
    simp
  · simp

theorem notMem_relax (hu : u ≠ 0x20) (h : u ∉ s) : u ∉ relax s := fun hmem =>
  (mem_relax hmem).elim hu h

/-- What the signature covers of its own field does not depend on how `b=` is folded and filled. -/
theorem exists_emptied (hne : specs ≠ []) (hspecs : ∀ spec ∈ specs, spec.Placed ∧ spec.name ≠ of "b") :
    ∃ form, ∀ sep broken, Sep sep → 0x3b ∉ broken →
      emptySignatureValue (relaxedHeader (of "DKIM-Signature:" ++
        (specs.flatMap (fun (spec : Spec) => spec.text ++ [0x3b]) ++ (sep ++ (of "b=" ++ broken))))) = form := by
  obtain ⟨spec, specs, rfl⟩ := List.exists_cons_of_ne_nil hne
  obtain ⟨hspec, hb⟩ := hspecs spec List.mem_cons_self
  have hrest : ∀ s ∈ specs, s.Placed ∧ s.name ≠ of "b" := fun s hs => hspecs s (List.mem_cons_of_mem _ hs)
  let parts : List CodeUnits := spec.bare :: specs.map fun s => 0x20 :: s.bare
  refine ⟨of "dkim-signature" ++ 0x3a :: [0x3b].intercalate (parts ++ [[0x20, 0x62, 0x3d]]), fun sep broken hsep hbroken => ?_⟩
  have hpart : ∀ part ∈ parts, ∃ sep name value, part = sep ++ (name ++ 0x3d :: value) ∧
      (∀ u ∈ sep, isFws u = true) ∧ isTagName name = true ∧ name ≠ of "b" ∧ 0x3b ∉ value := by
    intro part hpart
    rcases List.mem_cons.mp hpart with rfl | hpart
    · exact ⟨[], spec.name, relax spec.value, rfl, by simp, hspec.name, hb, notMem_relax (by decide) hspec.value⟩
    · obtain ⟨s, hs, rfl⟩ := List.mem_map.mp hpart
      exact ⟨[0x20], s.name, relax s.value, rfl, by decide, (hrest s hs).1.name, (hrest s hs).2,
        notMem_relax (by decide) (hrest s hs).1.value⟩
  have hclosed : ∀ part ∈ parts, 0x3b ∉ part := by
    intro part hmem hsemi
    obtain ⟨sep, name, value, rfl, hfws, hname, -, hvalue⟩ := hpart part hmem
    rcases List.mem_append.mp hsemi with hsemi | hsemi
    · exact absurd (hfws _ hsemi) (by decide)
    · rcases List.mem_append.mp hsemi with hsemi | hsemi
      · exact (isTagUnit_spec ((tagUnit_of_name hname).2 _ hsemi)).2.2.1 rfl
      · rcases List.mem_cons.mp hsemi with hsemi | hsemi
        · exact absurd hsemi (by decide)
        · exact hvalue hsemi
  -- the relaxed field
  have hlast : relax (sep ++ (of "b=" ++ broken)) = [0x20, 0x62] ++ 0x3d :: relax broken := by
    have hspace : relax sep = [0x20] := by rcases hsep with rfl | rfl <;> decide
    have hequals := relax_append (u := 0x3d) (by decide) [] broken
    rw [List.nil_append] at hequals
    show relax (sep ++ 0x62 :: 0x3d :: broken) = _
    rw [relax_append (by decide), hspace, hequals]
    rfl
  have hbefore : relax ((spec :: specs).flatMap (fun (spec : Spec) => spec.text ++ [0x3b]) ++ (sep ++ (of "b=" ++ broken))) =
      (0x20 :: (parts.flatMap (· ++ [0x3b]) ++ [0x20, 0x62])) ++ 0x3d :: relax broken := by
    rw [relax_specs fun s hs => (hspecs s hs).1, hlast]
    simp [parts, List.flatMap_map]
  have hstart : (0x20 :: (parts.flatMap (· ++ [0x3b]) ++ [0x20, 0x62])).dropWhile isWsp =
      parts.flatMap (· ++ [0x3b]) ++ [0x20, 0x62] := by
    obtain ⟨hname, hunits⟩ := tagUnit_of_name hspec.name
    obtain ⟨first, name, hfirst⟩ := List.exists_cons_of_ne_nil hname
    have hu := not_wsp (isTagUnit_spec (hunits first (by rw [hfirst]; exact List.mem_cons_self))).1
    have hnot : ¬isWsp first = true := Bool.eq_false_iff.mp hu.1
    have hparts : parts.flatMap (· ++ [0x3b]) ++ [0x20, 0x62] = first :: (name ++ 0x3d :: relax spec.value ++ [0x3b] ++
        (specs.map fun s => 0x20 :: s.bare).flatMap (· ++ [0x3b]) ++ [0x20, 0x62]) := by
      simp [parts, Spec.bare, hfirst]
    rw [List.dropWhile_cons_of_pos rfl, hparts, List.dropWhile_cons_of_neg hnot]
  have hrelaxed : relaxedHeader (of "DKIM-Signature:" ++
      ((spec :: specs).flatMap (fun (spec : Spec) => spec.text ++ [0x3b]) ++ (sep ++ (of "b=" ++ broken)))) =
      of "dkim-signature" ++ 0x3a :: (parts.flatMap (· ++ [0x3b]) ++
        ([0x20, 0x62] ++ 0x3d :: (relax broken).rdropWhile isWsp)) := by
    have hcolon := @relaxedHeader_colon (of "DKIM-Signature") ((spec :: specs).flatMap
      (fun (spec : Spec) => spec.text ++ [0x3b]) ++ (sep ++ (of "b=" ++ broken))) (by decide)
    refine hcolon.trans ?_
    have hname : lowerAscii (trimFws (Inbound.DkimCanonical.unfold (of "DKIM-Signature"))) = of "dkim-signature" := by
      decide +kernel
    show _ ++ 0x3a :: stripEnds isWsp (relax _) = _
    rw [hname, hbefore, stripEnds_append_cons (by decide), hstart, List.append_assoc]
  have hsegment : 0x3b ∉ [0x20, 0x62] ++ 0x3d :: (relax broken).rdropWhile isWsp := by
    intro hmem
    rcases List.mem_append.mp hmem with hmem | hmem
    · exact absurd hmem (by decide)
    · rcases List.mem_cons.mp hmem with hmem | hmem
      · exact absurd hmem (by decide)
      · exact notMem_relax (by decide) hbroken ((List.rdropWhile_prefix isWsp _).subset hmem)
  have hcut : cut? [0x3a] (of "dkim-signature" ++ 0x3a :: (parts.flatMap (· ++ [0x3b]) ++
      ([0x20, 0x62] ++ 0x3d :: (relax broken).rdropWhile isWsp))) = some (of "dkim-signature", _) :=
    cut?_eq_some.mpr (firstCut_singleton.mpr ⟨rfl, by decide⟩)
  have hempty : emptyTag [[0x20, 0x62] ++ 0x3d :: (relax broken).rdropWhile isWsp] = [[0x20, 0x62, 0x3d]] := by
    rw [emptyTag, cut?_tag (by decide)]
    dsimp only
    rw [if_pos (by decide)]
    rfl
  rw [hrelaxed, emptySignatureValue, hcut]
  dsimp only
  rw [splitOn_closed hclosed hsegment, emptyTag_append, hempty]
  intro part hmem
  obtain ⟨sep, name, value, heq, hfws, hname, hb, -⟩ := hpart part hmem
  exact ⟨sep, name, value, heq, hfws, hname, hb⟩

/-! ## Values -/

theorem mem_intercalate {x : UInt16} {ls : List CodeUnits} (h : u ∈ [x].intercalate ls) : u = x ∨ ∃ l ∈ ls, u ∈ l := by
  induction ls with
  | nil => cases h
  | cons l ls ih =>
    cases ls with
    | nil =>
      rw [List.intercalate_singleton] at h
      exact .inr ⟨l, List.mem_cons_self, h⟩
    | cons next ls =>
      rw [List.intercalate_cons_cons, List.mem_append, List.mem_append] at h
      rcases h with (h | h) | h
      · exact .inr ⟨l, List.mem_cons_self, h⟩
      · exact .inl (List.mem_singleton.mp h)
      · exact (ih h).imp_right fun ⟨l', hl', hu⟩ => ⟨l', List.mem_cons_of_mem _ hl', hu⟩

/-- The characters of a host name. -/
theorem unit_of_selector (h : isSelector value = true) (hu : u ∈ value) : isAlnum u = true ∨ u = 0x2d ∨ u = 0x2e := by
  have hjoin : [0x2e].intercalate (value.splitOn 0x2e) = value := List.intercalate_splitOn 0x2e
  rw [← hjoin] at hu
  rcases mem_intercalate hu with rfl | ⟨label, hlabel, hu⟩
  · exact .inr (.inr rfl)
  · have hlabel := List.all_eq_true.mp h label hlabel
    unfold isDomainLabel at hlabel
    simp only [Bool.and_eq_true] at hlabel
    have hunit := List.all_eq_true.mp hlabel.1.2 u hu
    rw [Bool.or_eq_true, beq_iff_eq] at hunit
    exact hunit.imp_right .inl

/-- In lower case, without white space, and allowed in a tag. -/
structure ValueUnit (u : UInt16) : Prop where
  fws : isFws u = false
  good : badTagValueChar u = false
  lower : CodeUnits.lower u = u
  ascii : u < 0x80

theorem valueUnit_host (h : isAlnum u = true ∨ u = 0x2d ∨ u = 0x2e) : ValueUnit u := by
  unfold isAlnum isDigit at h
  constructor
  · unfold isFws
    grind
  · unfold badTagValueChar
    simp only [Bool.or_eq_true, Bool.and_eq_true, decide_eq_true_eq, Bool.not_eq_false', UInt16.le_iff_toNat_le,
      ← UInt16.toNat_inj] at h ⊢
    simp only [UInt16.reduceToNat] at h ⊢
    omega
  · unfold CodeUnits.lower
    grind
  · grind

theorem toALabel_of {κ π : Type} (c : Primitives κ π) {pattern : CodeUnits → Bool} (h : isSelector value = true)
    (hpattern : pattern value = true) : toALabel c value pattern = some value := by
  have hascii : value.any (fun u => 0x80 ≤ u && u ≤ 0xff) = false := by
    rw [List.any_eq_false]
    intro u hu
    have hlt := (valueUnit_host (unit_of_selector h hu)).ascii
    grind
  have hlower : lowerAscii value = value := by
    unfold lowerAscii
    exact (List.map_congr_left fun u hu => (valueUnit_host (unit_of_selector h hu)).lower).trans (List.map_id value)
  unfold toALabel
  dsimp only
  rw [hascii, if_neg Bool.false_ne_true, hlower, hpattern]
  rfl

theorem base64_unit (h : Base64.isDigit u = true ∨ u = 0x3d) : isFws u = false ∧ badTagValueChar u = false ∧ u < 0x100 := by
  rcases h with h | rfl
  · have hall : Base64.alphabet.all (fun u => !isFws u && !badTagValueChar u && decide (u < 0x100)) = true := by
      decide +kernel
    have hunit := List.all_eq_true.mp hall u (List.contains_iff_mem.mp h)
    simp only [Bool.and_eq_true, Bool.not_eq_true', decide_eq_true_eq] at hunit
    exact ⟨hunit.1.1, hunit.1.2, hunit.2⟩
  · decide

/-- A signed name can stand in `h=`. -/
theorem unit_of_signedName (h : name ∈ signedNames) (hu : u ∈ name) :
    isFws u = false ∧ badTagValueChar u = false ∧ u ≠ 0x3a ∧ u < 0x100 := by
  have hall : signedNames.all (fun name => name.all fun u =>
      !isFws u && !badTagValueChar u && decide (u ≠ 0x3a) && decide (u < 0x100)) = true := by decide +kernel
  have hunit := List.all_eq_true.mp (List.all_eq_true.mp hall name h) u hu
  simp only [Bool.and_eq_true, Bool.not_eq_true', decide_eq_true_eq] at hunit
  exact ⟨hunit.1.1.1, hunit.1.1.2, hunit.1.2, hunit.2⟩

theorem lower_signedName (h : name ∈ signedNames) : lowerAscii name = name := by
  obtain ⟨n, -, rfl⟩ := List.mem_map.mp h
  exact lowerAscii_idem n

/-! ## The entries of `h=` -/

section Entries

variable {entry : CodeUnits} {entries parts : List CodeUnits}

theorem trimFws_gapped {e part : CodeUnits} (h : Gapped e part) (hsolid : ∀ u ∈ e, isFws u = false) :
    trimFws part = e := by
  obtain ⟨gap, hgap, rfl⟩ := h
  have hfws : ∀ u ∈ gap, isFws u = true := by rcases hgap with rfl | rfl <;> decide
  have hends : Solid isFws e :=
    ⟨fun u hu => hsolid u (List.mem_of_mem_head? hu), fun u hu => hsolid u (List.mem_of_getLast? hu)⟩
  have happend := stripEnds_append hfws hends (b := []) fun u hu => absurd hu List.not_mem_nil
  rwa [List.append_nil] at happend

theorem mem_gapped {e part : CodeUnits} (h : Gapped e part) (hu : u ∈ part) : u = 0x0d ∨ u = 0x0a ∨ u = 0x20 ∨ u ∈ e := by
  obtain ⟨gap, hgap, rfl⟩ := h
  rcases List.mem_append.mp hu with hu | hu
  · rcases hgap with rfl | rfl
    · cases hu
    · simp only [List.mem_cons, List.not_mem_nil, or_false] at hu
      rcases hu with rfl | rfl | rfl <;> simp
  · exact .inr (.inr (.inr hu))

/-- The folded entries are white space around the entries. -/
theorem forall_gapped {P : CodeUnits → Prop} (h : List.Forall₂ Gapped entries parts)
    (hstep : ∀ e ∈ entries, ∀ part, Gapped e part → P part) : ∀ part ∈ parts, P part := by
  induction h with
  | nil => simp
  | cons hhead _ ih =>
    intro part hpart
    rcases List.mem_cons.mp hpart with rfl | hpart
    · exact hstep _ List.mem_cons_self _ hhead
    · exact ih (fun e he => hstep e (List.mem_cons_of_mem _ he)) part hpart

theorem map_gapped {f : CodeUnits → CodeUnits} (h : List.Forall₂ Gapped entries parts)
    (hstep : ∀ e ∈ entries, ∀ part, Gapped e part → f part = e) : parts.map f = entries := by
  induction h with
  | nil => rfl
  | cons hhead _ ih =>
    rw [List.map_cons, hstep _ List.mem_cons_self _ hhead, ih fun e he => hstep e (List.mem_cons_of_mem _ he)]

variable (hnames : ∀ e ∈ entry :: entries, e ∈ signedNames) (hparts : List.Forall₂ Gapped entries parts)
include hnames hparts

theorem parts_spec : ∀ part ∈ entry :: parts, part ≠ [] ∧ (∀ u ∈ part.getLast?, isFws u = false) ∧
    ∀ u ∈ part, badTagValueChar u = false ∧ u ≠ 0x3a ∧ u < 0x100 := by
  have hname : ∀ e ∈ entry :: entries, ∀ part, Gapped e part → part ≠ [] ∧ (∀ u ∈ part.getLast?, isFws u = false) ∧
      ∀ u ∈ part, badTagValueChar u = false ∧ u ≠ 0x3a ∧ u < 0x100 := by
    intro e he part hpart
    have hne := (plain_signedNames (hnames e he)).1
    have hunits := fun u hu => unit_of_signedName (u := u) (hnames e he) hu
    obtain ⟨gap, hgap, rfl⟩ := hpart
    refine ⟨List.append_ne_nil_of_right_ne_nil _ hne, fun u hu => ?_, fun u hu => ?_⟩
    · rw [List.getLast?_append_of_ne_nil _ hne] at hu
      exact (hunits u (List.mem_of_getLast? hu)).1
    · rcases mem_gapped ⟨gap, hgap, rfl⟩ hu with rfl | rfl | rfl | hu
      · decide
      · decide
      · decide
      · exact (hunits u hu).2
  intro part hpart
  rcases List.mem_cons.mp hpart with rfl | hpart
  · exact hname _ List.mem_cons_self _ ⟨[], .inl rfl, rfl⟩
  · exact forall_gapped hparts (fun e he part h => hname e (List.mem_cons_of_mem _ he) part h) part hpart

theorem splitList_entries : splitList (trimFws ([0x3a].intercalate (entry :: parts))) = entry :: entries := by
  have hspec := parts_spec hnames hparts
  have hentry := hnames entry List.mem_cons_self
  have hfirst : ∀ u ∈ entry, isFws u = false := fun u hu => (unit_of_signedName hentry hu).1
  have hsolid : Solid isFws ([0x3a].intercalate (entry :: parts)) := by
    constructor
    · intro u hu
      obtain ⟨v, entry', rfl⟩ := List.exists_cons_of_ne_nil (plain_signedNames hentry).1
      have hhead : ([0x3a].intercalate ((v :: entry') :: parts)).head? = some v := by
        cases parts with
        | nil => rw [List.intercalate_singleton]; rfl
        | cons part parts => rw [List.intercalate_cons_cons]; rfl
      rw [hhead] at hu
      cases hu
      exact hfirst _ List.mem_cons_self
    · intro u hu
      obtain ⟨front, last, hlast⟩ := (List.eq_nil_or_concat (entry :: parts)).resolve_left (List.cons_ne_nil _ _)
      rw [List.concat_eq_append] at hlast
      have hmem : last ∈ entry :: parts := hlast ▸ List.mem_append_right _ (List.mem_singleton_self _)
      obtain ⟨hne, hends, -⟩ := hspec last hmem
      rw [hlast, ← flatMap_eq_intercalate, List.getLast?_append_of_ne_nil _ hne] at hu
      exact hends u hu
  have htrim : trimFws ([0x3a].intercalate (entry :: parts)) = [0x3a].intercalate (entry :: parts) :=
    stripEnds_of_solid hsolid
  have hsplit : ([0x3a].intercalate (entry :: parts)).splitOn 0x3a = entry :: parts :=
    List.splitOn_intercalate 0x3a (fun l hl hmem => ((hspec l hl).2.2 _ hmem).2.1 rfl) (List.cons_ne_nil _ _)
  unfold splitList
  rw [htrim, hsplit, List.map_cons, trimFws_solid hfirst, lower_signedName hentry, map_gapped hparts]
  intro e he part hpart
  have hmem := hnames e (List.mem_cons_of_mem _ he)
  rw [trimFws_gapped hpart fun u hu => (unit_of_signedName hmem hu).1, lower_signedName hmem]

end Entries

/-! ## The signature that is read -/

variable {κ π : Type} (c : Primitives κ π)

/-- The tags of a signature in which none but the required ones, `c=` and `q=` stand. -/
structure SignatureTags (tags : Tags) (algorithm : Algorithm) (domain selector bodyHash h b : CodeUnits) : Prop where
  v : tags.get "v" = some (of "1")
  a : tags.get "a" = some algorithm.name
  c : tags.get "c" = some (of "relaxed/relaxed")
  d : tags.get "d" = some domain
  q : tags.get "q" = some (of "dns/txt")
  s : tags.get "s" = some selector
  bh : tags.get "bh" = some bodyHash
  h : tags.get "h" = some h
  b : tags.get "b" = some b
  i : tags.get "i" = none
  l : tags.get "l" = none
  t : tags.get "t" = none
  x : tags.get "x" = none

/-- The signature of those tags. -/
def readSignature (algorithm : Algorithm) (domain selector bodyHash : CodeUnits) (names : List CodeUnits)
    (signature : List UInt8) : ParsedSignature where
  algorithm := algorithm
  signature := signature
  bodyHash := bodyHash
  headerCanon := .relaxed
  bodyCanon := .relaxed
  domain := domain
  selector := selector
  signedHeaders := names
  identityDomain := none
  bodyLength := none
  expiration := none

theorem parseSignature_of {raw domain selector h b : CodeUnits} {tags : Tags} {algorithm : Algorithm}
    {hash signature : List UInt8} {names : List CodeUnits}
    (htags : parseTagList (fieldValue raw) = some tags)
    (hread : SignatureTags tags algorithm domain selector (Base64.encode hash) h b)
    (hdomain : isDomainName domain = true) (hselector : isSelector selector = true)
    (hhash : hash ≠ []) (hsignature : signature ≠ []) (hb : stripFws b = Base64.encode signature)
    (hh : splitList h = names) (hnames : [] ∉ names) (hfrom : of "from" ∈ names) :
    parseSignature c raw = .ok (readSignature algorithm domain selector (Base64.encode hash) names signature) := by
  have hrequired : (REQUIRED_TAGS.any fun tag => (tags.get tag).isNone) = false := by
    simp [REQUIRED_TAGS, hread.v, hread.a, hread.b, hread.bh, hread.d, hread.h, hread.s]
  have hhashFws : stripFws (Base64.encode hash) = Base64.encode hash :=
    stripFws_solid fun u hu => (base64_unit (Base64.mem_encode hu)).1
  have hcanon : canonicalizations (of "relaxed/relaxed") = some (.relaxed, .relaxed) := by
    have hparts : (lowerAscii (of "relaxed/relaxed")).splitOn 0x2f = [of "relaxed", of "relaxed"] := by decide +kernel
    have hne : of "relaxed" ≠ of "simple" := by decide
    simp [canonicalizations, hparts, hne]
  have hquery : (splitList (of "dns/txt")).contains (of "dns/txt") = true := by decide +kernel
  have hhost : isSelector domain = true := by
    unfold isDomainName at hdomain
    exact (Bool.and_eq_true _ _ ▸ hdomain).1
  have hlower : lowerAscii algorithm.name = algorithm.name := by cases algorithm <;> decide +kernel
  have hknown : (algorithm.name != of "rsa-sha256" && algorithm.name != of "ed25519-sha256" &&
      algorithm.name != of "rsa-sha1") = false := by cases algorithm <;> decide +kernel
  have hsha1 : (algorithm.name == of "rsa-sha1") = false := by cases algorithm <;> decide +kernel
  have hback : (if algorithm.name = of "rsa-sha256" then Algorithm.rsaSha256 else .ed25519Sha256) = algorithm := by
    cases algorithm <;> decide +kernel
  have hnil : names.contains [] = false := by simpa using hnames
  have hsigned : names.contains (of "from") = true := by simpa using hfrom
  have hbind : ∀ {α β : Type} (x : α) (f : α → Except Failure β), (Except.ok x >>= f) = f x := fun _ _ => rfl
  unfold parseSignature
  simp only [htags, required_some, hbind, hrequired, reject_false, hread.v, hread.a, hread.b, hread.bh, hread.c,
    hread.d, hread.s, hread.h, hread.q, bne_self_eq_false, Option.getD_some, hlower, hknown, hb, hhashFws,
    Base64.isBase64_encode hsignature, Base64.isBase64_encode hhash, hcanon, toALabel_of c hhost hdomain,
    toALabel_of c hselector hselector, hh, hnil, hsigned, Option.any_some, Option.any_none, hquery, Bool.not_true,
    identity, hread.i, number, hread.l, hread.t, hread.x, hsha1, hback]
  rw [Base64.length_encode, Base64.length_encode, Base64.decode_encode]
  rfl

end BunMail.Emails.DkimSigner
