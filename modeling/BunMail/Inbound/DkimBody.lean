import BunMail.Inbound.DkimCanonical

/-!
# Canonical bodies

The passes over a whole body do to each of its lines what its form does, and the canonical form of a
canonical body is the body itself.
-/

namespace BunMail.Inbound.DkimCanonical

open CodeUnits Lines

variable {u : UInt16} {l s : CodeUnits} {ls : List CodeUnits}

/-! ## Single spaces -/

/-- White space is single spaces. -/
structure Reduced (s : CodeUnits) : Prop where
  space : ∀ u ∈ s, isWsp u = true → u = 0x20
  apart : s.IsChain fun u v => isWsp u = true → isWsp v = false

theorem head?_reduceWsp (hu : isWsp u = false) (h : (reduceWsp s).head? = some u) : s.head? = some u := by
  fun_induction reduceWsp s with
  | case1 => exact h
  | case2 v s hv hnext ih =>
    have hhead := ih h
    rw [hhead, Option.any_some, hu] at hnext
    exact absurd hnext Bool.false_ne_true
  | case3 v s hv hnext ih =>
    obtain rfl := Option.some.inj h
    exact absurd hu (by decide)
  | case4 v s hv ih => exact h

theorem wsp_reduceWsp (h : (reduceWsp s).head?.any isWsp = true) : s.head?.any isWsp = true := by
  fun_cases reduceWsp s with
  | case1 => exact h
  | case2 v s hv hnext => simpa using hv
  | case3 v s hv hnext => simpa using hv
  | case4 v s hv =>
    rw [reduceWsp, if_neg hv] at h
    exact h

theorem reduced_cons : Reduced (u :: s) ↔
    (isWsp u = true → u = 0x20 ∧ s.head?.any isWsp = false) ∧ Reduced s := by
  constructor
  · rintro ⟨hspace, hapart⟩
    refine ⟨fun hu => ⟨hspace u List.mem_cons_self hu, ?_⟩,
      fun v hv => hspace v (List.mem_cons_of_mem _ hv), hapart.tail⟩
    cases s with
    | nil => rfl
    | cons v s => exact (List.isChain_cons_cons.mp hapart).1 hu
  · rintro ⟨hu, hspace, hapart⟩
    constructor
    · intro v hv hwsp
      rcases List.mem_cons.mp hv with rfl | hv
      · exact (hu hwsp).1
      · exact hspace v hv hwsp
    · cases s with
      | nil => exact List.isChain_singleton u
      | cons v s => exact List.isChain_cons_cons.mpr ⟨fun hwsp => (hu hwsp).2, hapart⟩

theorem reduced_nil : Reduced [] := ⟨fun _ h => absurd h List.not_mem_nil, List.isChain_nil⟩

theorem reduced_reduceWsp (s : CodeUnits) : Reduced (reduceWsp s) := by
  fun_induction reduceWsp s with
  | case1 => exact reduced_nil
  | case2 v s hv hnext ih => exact ih
  | case3 v s hv hnext ih =>
    refine reduced_cons.mpr ⟨fun _ => ⟨rfl, ?_⟩, ih⟩
    rw [Bool.eq_false_iff]
    exact fun hwsp => hnext (wsp_reduceWsp hwsp)
  | case4 v s hv ih => exact reduced_cons.mpr ⟨fun hwsp => absurd hwsp hv, ih⟩

theorem reduceWsp_of_reduced (h : Reduced s) : reduceWsp s = s := by
  induction s with
  | nil => rfl
  | cons u s ih =>
    obtain ⟨hu, hs⟩ := reduced_cons.mp h
    rw [reduceWsp, ih hs]
    split_ifs with hwsp hnext
    · rw [(hu hwsp).2] at hnext
      exact absurd hnext Bool.false_ne_true
    · rw [(hu hwsp).1]
    · rfl

theorem Reduced.of_within (h : Reduced s) (hl : l <:+: s) : Reduced l :=
  ⟨fun u hu => h.space u (hl.subset hu), h.apart.infix hl⟩

theorem Reduced.reverse (h : Reduced s) : Reduced s.reverse := by
  refine ⟨fun u hu => h.space u (List.mem_reverse.mp hu), List.isChain_reverse.mpr (h.apart.imp ?_)⟩
  intro a b hab hb
  rw [Bool.eq_false_iff]
  intro ha
  rw [hab ha] at hb
  exact absurd hb Bool.false_ne_true

theorem reduceWsp_append (hs : s.head?.any isWsp = false) :
    reduceWsp (l ++ s) = reduceWsp l ++ reduceWsp s := by
  induction l with
  | nil => rfl
  | cons u l ih =>
    have hnext : (l ++ s).head?.any isWsp = l.head?.any isWsp := by
      cases l with
      | nil => exact hs
      | cons v l => rfl
    rw [List.cons_append, reduceWsp, reduceWsp, hnext, ih]
    split_ifs <;> rfl

/-! ## Spaces at an end -/

theorem dropFirstSpace_of_reduced (h : Reduced s) : dropFirstSpace s = s.dropWhile isWsp := by
  unfold dropFirstSpace
  cases s with
  | nil => rfl
  | cons u s =>
    obtain ⟨hu, -⟩ := reduced_cons.mp h
    by_cases hwsp : isWsp u = true
    · obtain ⟨rfl, hnext⟩ := hu hwsp
      rw [List.head?_cons, if_pos rfl, List.dropWhile_cons_of_pos hwsp, List.tail_cons]
      cases s with
      | nil => rfl
      | cons v s =>
        have hv : ¬isWsp v = true := Bool.eq_false_iff.mp hnext
        rw [List.dropWhile_cons_of_neg hv]
    · have hne : ¬(u :: s).head? = some 0x20 := by
        rintro heq
        obtain rfl := Option.some.inj heq
        exact hwsp rfl
      rw [if_neg hne, List.dropWhile_cons_of_neg hwsp]

theorem dropLastSpace_of_reduced (h : Reduced s) : dropLastSpace s = s.rdropWhile isWsp := by
  have hfirst := dropFirstSpace_of_reduced h.reverse
  unfold dropFirstSpace at hfirst
  unfold dropLastSpace List.rdropWhile
  rw [← hfirst, List.head?_reverse, List.tail_reverse]
  split_ifs
  · rw [List.reverse_reverse]
  · rw [List.reverse_reverse]

theorem dropLastSpace_append (hu : u ≠ 0x20) (l s : CodeUnits) :
    dropLastSpace (l ++ u :: s) = l ++ u :: dropLastSpace s := by
  unfold dropLastSpace
  cases s with
  | nil => simp [hu]
  | cons v s =>
    have hlast : (l ++ u :: v :: s).getLast? = (v :: s).getLast? := by simp [List.getLast?_cons]
    rw [hlast]
    split_ifs
    · simp
    · rfl

theorem dropLastSpace_cons (u : UInt16) (h : l ≠ []) : dropLastSpace (u :: l) = u :: dropLastSpace l := by
  unfold dropLastSpace
  obtain ⟨v, rest, rfl⟩ := List.exists_cons_of_ne_nil h
  have hlast : (u :: v :: rest).getLast? = (v :: rest).getLast? := List.getLast?_cons_cons
  rw [hlast]
  split_ifs
  · simp
  · rfl

/-! ## The passes, line by line -/

theorem reduceWsp_joinLines (h : ls ≠ []) :
    reduceWsp (joinLines 0x0d 0x0a ls) = joinLines 0x0d 0x0a (ls.map reduceWsp) := by
  induction ls with
  | nil => exact absurd rfl h
  | cons l ls ih =>
    cases ls with
    | nil => rw [joinLines_singleton, List.map_singleton, joinLines_singleton]
    | cons next ls =>
      have hbreak : ∀ s, reduceWsp (0x0d :: 0x0a :: s) = 0x0d :: 0x0a :: reduceWsp s := fun _ => rfl
      rw [joinLines_cons l (by simp), reduceWsp_append rfl, hbreak, ih (by simp)]
      exact (joinLines_cons _ (by simp)).symm

theorem dropSpaceBreaks_of_unbroken (h : Unbroken 0x0d 0x0a l) : dropSpaceBreaks l = l := by
  induction l with
  | nil => rfl
  | cons u l ih =>
    obtain ⟨-, hl⟩ := unbroken_cons.mp h
    rw [dropSpaceBreaks, ih hl, if_neg]
    exact fun hbreak => hl hbreak.2.isInfix

theorem dropSpaceBreaks_append (h : Unbroken 0x0d 0x0a l) (s : CodeUnits) :
    dropSpaceBreaks (l ++ 0x0d :: 0x0a :: s) = dropLastSpace l ++ 0x0d :: 0x0a :: dropSpaceBreaks s := by
  have hcrlf : dropSpaceBreaks (0x0d :: 0x0a :: s) = 0x0d :: 0x0a :: dropSpaceBreaks s := rfl
  induction l with
  | nil => exact hcrlf
  | cons u l ih =>
    obtain ⟨-, hl⟩ := unbroken_cons.mp h
    cases l with
    | nil =>
      rw [List.cons_append, List.nil_append, dropSpaceBreaks, hcrlf]
      unfold dropLastSpace
      by_cases hu : u = 0x20
      · rw [if_pos ⟨hu, s, rfl⟩, hu]
        rfl
      · rw [if_neg fun hspace => hu hspace.1, if_neg]
        · rfl
        · exact fun hlast => hu (Option.some.inj hlast)
    | cons v l =>
      have hgoes : ¬crlf <+: v :: l ++ 0x0d :: 0x0a :: s := by
        rintro hbegins
        rw [crlf, List.cons_append, List.cons_prefix_cons] at hbegins
        cases l with
        | nil => exact absurd (List.cons_prefix_cons.mp hbegins.2).1 (by decide)
        | cons w l =>
          rw [List.cons_append, List.cons_prefix_cons] at hbegins
          exact (unbroken_cons.mp hl).1 ⟨hbegins.1.symm, by rw [hbegins.2.1]; rfl⟩
      rw [List.cons_append, dropSpaceBreaks, if_neg fun hspace => hgoes hspace.2, ih hl,
        dropLastSpace_cons u (List.cons_ne_nil v l), List.cons_append]

/-- A space goes at the end of every line. -/
theorem dropLastSpace_joinLines (hls : ls ≠ []) (h : ∀ l ∈ ls, Unbroken 0x0d 0x0a l) :
    dropLastSpace (dropSpaceBreaks (joinLines 0x0d 0x0a ls)) =
      joinLines 0x0d 0x0a (ls.map dropLastSpace) := by
  induction ls with
  | nil => exact absurd rfl hls
  | cons l ls ih =>
    have hl := h l List.mem_cons_self
    cases ls with
    | nil => rw [joinLines_singleton, dropSpaceBreaks_of_unbroken hl, List.map_singleton, joinLines_singleton]
    | cons next ls =>
      have hrest := ih (by simp) fun l' hl' => h l' (List.mem_cons_of_mem _ hl')
      have hend : ∀ a b : CodeUnits, dropLastSpace (a ++ 0x0d :: 0x0a :: b) = a ++ 0x0d :: 0x0a :: dropLastSpace b := by
        intro a b
        have hafter := dropLastSpace_append (u := 0x0a) (by decide) (a ++ [0x0d]) b
        rwa [List.append_assoc, List.append_assoc] at hafter
      rw [joinLines_cons l (by simp), dropSpaceBreaks_append hl, hend, hrest]
      exact (joinLines_cons _ (by simp)).symm

/-! ## Line breaks at the end -/

theorem lineBreaksEnd_append (l s : CodeUnits) {n : ℕ} (hn : n ≤ l.length) :
    lineBreaksEnd (l ++ s) n = lineBreaksEnd l n := by
  induction n using Nat.twoStepInduction with
  | zero => rfl
  | one => rfl
  | more n ih _ =>
    rw [lineBreaksEnd, lineBreaksEnd, List.getElem?_append_left (by omega),
      List.getElem?_append_left (by omega), ih (by omega)]

theorem lineBreaksEnd_le (l : CodeUnits) (n : ℕ) : lineBreaksEnd l n ≤ n := by
  induction n using Nat.twoStepInduction with
  | zero => exact Nat.le_refl 0
  | one => exact Nat.le_refl 1
  | more n ih _ =>
    rw [lineBreaksEnd]
    split_ifs
    · omega
    · exact Nat.le_refl _

theorem trim_append_break (s : CodeUnits) :
    trimTrailingLineBreaks (s ++ crlf) = trimTrailingLineBreaks s := by
  have hlength : (s ++ crlf).length = s.length + 2 := by rw [List.length_append]; rfl
  have hcr : (s ++ crlf)[s.length]? = some 0x0d := by simp [crlf]
  have hlf : (s ++ crlf)[s.length + 1]? = some 0x0a := by simp [crlf]
  unfold trimTrailingLineBreaks
  rw [hlength, lineBreaksEnd, if_pos ⟨hcr, hlf⟩, lineBreaksEnd_append s crlf (Nat.le_refl _),
    List.take_append_of_le_length (lineBreaksEnd_le s _)]

theorem trim_of_not_break (h : ¬crlf <:+ s) : trimTrailingLineBreaks s = s := by
  have hstays : lineBreaksEnd s s.length = s.length := by
    generalize hn : s.length = n
    match n, hn with
    | 0, _ => rfl
    | 1, _ => rfl
    | n + 2, hn =>
      rw [lineBreaksEnd, if_neg]
      rintro ⟨hcr, hlf⟩
      refine h ⟨s.take n, ?_⟩
      obtain ⟨hlt, hcr⟩ := List.getElem?_eq_some_iff.mp hcr
      obtain ⟨hlt', hlf⟩ := List.getElem?_eq_some_iff.mp hlf
      have hdrop : s.drop n = crlf := by
        rw [List.drop_eq_getElem_cons hlt, List.drop_eq_getElem_cons hlt', hcr, hlf,
          List.drop_eq_nil_of_le (by omega)]
        rfl
      rw [← hdrop, List.take_append_drop]
  unfold trimTrailingLineBreaks
  rw [hstays, List.take_length]

theorem not_crlf_suffix (h : l ≠ []) (hl : Unbroken 0x0d 0x0a l) (s : CodeUnits) :
    ¬crlf <:+ s ++ 0x0d :: 0x0a :: l := by
  have hline : Unbroken 0x0d 0x0a (0x0a :: l) := unbroken_cons.mpr ⟨fun hpair => absurd hpair.1 (by decide), hl⟩
  intro hends
  have hlf : 0x0a :: l <:+ s ++ 0x0d :: 0x0a :: l := ⟨s ++ [0x0d], by rw [List.append_assoc]; rfl⟩
  have hlength : crlf.length ≤ (0x0a :: l).length := by
    rw [List.length_cons]
    exact Nat.succ_le_succ (List.length_pos_iff.mpr h)
  exact hline (List.suffix_of_suffix_length_le hends hlf hlength).isInfix

/-- The empty lines at the end go. -/
theorem trim_joinLines (h : ∀ l ∈ ls, Unbroken 0x0d 0x0a l) :
    trimTrailingLineBreaks (joinLines 0x0d 0x0a ls) = joinLines 0x0d 0x0a (ls.rdropWhile (· = [])) := by
  induction ls using List.reverseRecOn with
  | nil => rfl
  | append_singleton ls l ih =>
    have hls : ∀ l' ∈ ls, Unbroken 0x0d 0x0a l' := fun l' hl' => h l' (List.mem_append_left _ hl')
    have hl : Unbroken 0x0d 0x0a l := h l List.mem_concat_self
    by_cases hempty : l = []
    · have hdrops : (ls ++ [l]).rdropWhile (· = []) = ls.rdropWhile (· = []) :=
        List.rdropWhile_concat_pos _ ls l (by simpa using hempty)
      rw [hdrops, ← ih hls, hempty]
      by_cases hnone : ls = []
      · rw [hnone]
        rfl
      · rw [joinLines_concat hnone]
        exact trim_append_break _
    · have hkeeps : (ls ++ [l]).rdropWhile (· = []) = ls ++ [l] :=
        List.rdropWhile_concat_neg _ ls l (by simpa using hempty)
      rw [hkeeps]
      refine trim_of_not_break ?_
      by_cases hnone : ls = []
      · rw [hnone, List.nil_append, joinLines_singleton]
        exact fun hends => hl hends.isInfix
      · rw [joinLines_concat hnone]
        exact not_crlf_suffix hempty hl _

/-! ## The body in its form -/

theorem unbroken_reduceWsp (h : Unbroken 0x0d 0x0a l) : Unbroken 0x0d 0x0a (reduceWsp l) := by
  fun_induction reduceWsp l with
  | case1 => exact unbroken_nil
  | case2 u s hu hnext ih => exact ih (unbroken_cons.mp h).2
  | case3 u s hu hnext ih =>
    exact unbroken_cons.mpr ⟨fun hpair => absurd hpair.1 (by decide), ih (unbroken_cons.mp h).2⟩
  | case4 u s hu ih =>
    obtain ⟨hpair, hs⟩ := unbroken_cons.mp h
    refine unbroken_cons.mpr ⟨?_, ih hs⟩
    exact fun hbreak => hpair ⟨hbreak.1, head?_reduceWsp rfl hbreak.2⟩

theorem unbroken_line (canon : Canonicalization) (h : Unbroken 0x0d 0x0a l) :
    Unbroken 0x0d 0x0a (canon.line l) := by
  cases canon with
  | simple => exact h
  | relaxed =>
    exact fun hbreak => unbroken_reduceWsp h (hbreak.trans (List.rdropWhile_prefix _ _).isInfix)

theorem line_idem (canon : Canonicalization) (l : CodeUnits) : canon.line (canon.line l) = canon.line l := by
  cases canon with
  | simple => rfl
  | relaxed =>
    have hreduced : Reduced (relaxedLine l) :=
      (reduced_reduceWsp l).of_within (List.rdropWhile_prefix _ _).isInfix
    show relaxedLine (relaxedLine l) = relaxedLine l
    rw [relaxedLine, reduceWsp_of_reduced hreduced, relaxedLine]
    exact List.rdropWhile_idempotent _ _

theorem line_nil (canon : Canonicalization) : canon.line [] = [] := by
  cases canon <;> rfl

variable {canon : Canonicalization} {body : CodeUnits}

theorem mem_keptLines (h : l ∈ keptLines canon body) : Unbroken 0x0d 0x0a l ∧ canon.line l = l := by
  have hmem : l ∈ (lines 0x0d 0x0a body).map canon.line := (List.rdropWhile_prefix _ _).subset h
  obtain ⟨line, hline, rfl⟩ := List.mem_map.mp hmem
  exact ⟨unbroken_line canon (unbroken_of_mem_lines hline), line_idem canon line⟩

theorem rdropWhile_keptLines (canon : Canonicalization) (body : CodeUnits) :
    (keptLines canon body).rdropWhile (· = []) = keptLines canon body :=
  List.rdropWhile_idempotent _ _

/-- What the passes leave, without its line break. -/
theorem trim_passes (canon : Canonicalization) (body : CodeUnits) :
    trimTrailingLineBreaks (joinLines 0x0d 0x0a ((lines 0x0d 0x0a body).map canon.line)) =
      joinLines 0x0d 0x0a (keptLines canon body) := by
  refine trim_joinLines fun l hl => ?_
  obtain ⟨line, hline, rfl⟩ := List.mem_map.mp hl
  exact unbroken_line canon (unbroken_of_mem_lines hline)

theorem dropLastSpace_passes (body : CodeUnits) :
    dropLastSpace (dropSpaceBreaks (reduceWsp body)) =
      joinLines 0x0d 0x0a ((lines 0x0d 0x0a body).map relaxedLine) := by
  have hne := lines_ne_nil (0x0d : UInt16) 0x0a body
  have hunbroken : ∀ l ∈ (lines 0x0d 0x0a body).map reduceWsp, Unbroken 0x0d 0x0a l := by
    intro l hl
    obtain ⟨line, hline, rfl⟩ := List.mem_map.mp hl
    exact unbroken_reduceWsp (unbroken_of_mem_lines hline)
  have hspaces : (lines 0x0d 0x0a body).map (dropLastSpace ∘ reduceWsp) =
      (lines 0x0d 0x0a body).map relaxedLine :=
    List.map_congr_left fun l _ => dropLastSpace_of_reduced (reduced_reduceWsp l)
  calc dropLastSpace (dropSpaceBreaks (reduceWsp body))
      = dropLastSpace (dropSpaceBreaks (reduceWsp (joinLines 0x0d 0x0a (lines 0x0d 0x0a body)))) := by
        rw [join_lines]
    _ = joinLines 0x0d 0x0a ((lines 0x0d 0x0a body).map relaxedLine) := by
        rw [reduceWsp_joinLines hne, dropLastSpace_joinLines (by simpa using hne) hunbroken, List.map_map,
          hspaces]

theorem bodyForm_of_some (h : keptLines canon body ≠ []) :
    bodyForm canon body = joinLines 0x0d 0x0a (keptLines canon body) ++ crlf := by
  rw [bodyForm, if_neg h]
  exact (joinLines_append_break h).symm

theorem joinLines_keptLines_eq_nil :
    joinLines 0x0d 0x0a (keptLines canon body) = [] ↔ keptLines canon body = [] := by
  constructor
  · intro hjoin
    by_contra hne
    obtain ⟨front, last, hkept⟩ : ∃ front last, keptLines canon body = front ++ [last] :=
      ⟨_, _, (List.dropLast_append_getLast hne).symm⟩
    have hlast : last ≠ [] := by
      rintro rfl
      have hdrops : (front ++ [([] : CodeUnits)]).rdropWhile (· = []) = front.rdropWhile (· = []) :=
        List.rdropWhile_concat_pos _ front [] rfl
      have hsame := rdropWhile_keptLines canon body
      rw [hkept, hdrops] at hsame
      have hle := (List.rdropWhile_prefix (fun l : CodeUnits => decide (l = [])) front).length_le
      rw [hsame, List.length_append, List.length_singleton] at hle
      omega
    rw [hkept] at hjoin
    by_cases hfront : front = []
    · rw [hfront, List.nil_append, joinLines_singleton] at hjoin
      exact hlast hjoin
    · rw [joinLines_concat hfront] at hjoin
      exact absurd (List.append_eq_nil_iff.mp hjoin).2 (List.cons_ne_nil _ _)
  · intro h
    rw [h]
    rfl

/-- **The body comes out in its form.** -/
theorem canonicalBody_eq (canon : Canonicalization) (body : CodeUnits) :
    canonicalBody body canon = bodyForm canon body := by
  cases canon with
  | simple =>
    have htrim := trim_passes .simple body
    rw [Canonicalization.line, List.map_id, join_lines] at htrim
    rw [canonicalBody, htrim]
    by_cases hnone : keptLines .simple body = []
    · rw [bodyForm, if_pos hnone, hnone]
      rfl
    · rw [bodyForm_of_some hnone]
  | relaxed =>
    have htrim := trim_passes .relaxed body
    rw [Canonicalization.line] at htrim
    rw [canonicalBody, dropLastSpace_passes, htrim]
    by_cases hnone : keptLines .relaxed body = []
    · rw [bodyForm, if_pos hnone, if_pos (joinLines_keptLines_eq_nil.mpr hnone)]
      rfl
    · rw [bodyForm_of_some hnone, if_neg fun hjoin => hnone (joinLines_keptLines_eq_nil.mp hjoin)]

/-- A canonical body has the lines it was made of. -/
theorem keptLines_bodyForm (canon : Canonicalization) (body : CodeUnits) :
    keptLines canon (bodyForm canon body) = keptLines canon body := by
  by_cases hnone : keptLines canon body = []
  · rw [bodyForm, if_pos hnone, hnone]
    cases canon <;> rfl
  · have hunbroken : ∀ l ∈ keptLines canon body ++ [[]], Unbroken 0x0d 0x0a l := by
      intro l hl
      rcases List.mem_append.mp hl with hl | hl
      · exact (mem_keptLines hl).1
      · rw [List.mem_singleton.mp hl]
        exact unbroken_nil
    have hlines : lines 0x0d 0x0a (bodyForm canon body) = keptLines canon body ++ [[]] := by
      rw [bodyForm_of_some hnone, crlf, ← joinLines_concat hnone, lines_join (by decide) (by simp) hunbroken]
    have hforms : (keptLines canon body).map canon.line = keptLines canon body :=
      (List.map_congr_left fun l hl => (mem_keptLines hl).2).trans (List.map_id _)
    have hdrops : (keptLines canon body ++ [[]]).rdropWhile (· = []) =
        (keptLines canon body).rdropWhile (· = []) := List.rdropWhile_concat_pos _ _ [] rfl
    have hagain : keptLines canon (bodyForm canon body) =
        ((lines 0x0d 0x0a (bodyForm canon body)).map canon.line).rdropWhile (· = []) := rfl
    rw [hagain, hlines, List.map_append, List.map_singleton, line_nil, hforms, hdrops, rdropWhile_keptLines]

theorem bodyForm_idem (canon : Canonicalization) (body : CodeUnits) :
    bodyForm canon (bodyForm canon body) = bodyForm canon body := by
  have hagain : bodyForm canon (bodyForm canon body) =
      if keptLines canon (bodyForm canon body) = [] then canon.emptyForm
      else (keptLines canon (bodyForm canon body)).flatMap (· ++ crlf) := rfl
  rw [hagain, keptLines_bodyForm]
  rfl

end BunMail.Inbound.DkimCanonical
