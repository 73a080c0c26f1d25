import BunMail.Domains.SpfRecords

/-!
# Exactness of the SPF parser

A text that starts like an SPF record is parsed exactly if what follows the version is derived by the
grammar, and the parse gives the record of the derivation.
-/

namespace BunMail.Spf

open Text Ip

/-! ## Words -/

/-- The terms between the spaces. -/
def words (s : Text) : List Text := (s.splitOn ' ').filter fun t => t ≠ []

/-- What follows the version, and what follows a term. -/
def StartsTerms (s : Text) : Prop := ∀ c ∈ s.head?, c = ' '

theorem words_space (s : Text) : words (' ' :: s) = words s := by
  unfold words
  rw [List.splitOn_cons_eq_if_modifyHead, if_pos (beq_self_eq_true ' ')]
  rfl

theorem words_spaces (n : ℕ) (s : Text) : words (List.replicate n ' ' ++ s) = words s := by
  induction n with
  | zero => rfl
  | succ n ih =>
    rw [List.replicate_succ, List.cons_append, words_space, ih]

theorem filter_cons {t : Text} (hne : t ≠ []) (ts : List Text) :
    (t :: ts).filter (fun t => decide (t ≠ [])) = t :: ts.filter fun t => t ≠ [] :=
  List.filter_cons_of_pos (decide_eq_true hne)

theorem words_append {t s : Text} (hne : t ≠ []) (ht : ' ' ∉ t) (hs : StartsTerms s) :
    words (t ++ s) = t :: words s := by
  cases s with
  | nil =>
    unfold words
    rw [List.append_nil, List.splitOn_eq_singleton ht, filter_cons hne]
    rfl
  | cons c s =>
    obtain rfl := hs c rfl
    rw [words_space]
    unfold words
    rw [List.splitOn_append_cons_self_of_not_mem ht, filter_cons hne]

theorem ne_nil_of_mem_words {s t : Text} (h : t ∈ words s) : t ≠ [] :=
  of_decide_eq_true (List.mem_filter.mp h).2

theorem space_notMem {t : Text} (h : ∀ c ∈ t, Visible c) : ' ' ∉ t := fun hmem =>
  absurd (h _ hmem) (by decide)

theorem startsTerms_of_terms {s : Text} {values : List TermValue} (h : Terms s values) :
    StartsTerms s := by
  intro c hc
  cases h with
  | done n =>
    cases n with
    | zero => cases hc
    | succ n => exact (Option.some.inj hc).symm
  | term => exact (Option.some.inj hc).symm

theorem Terms.space {s : Text} {values : List TermValue} (h : Terms s values) :
    Terms (' ' :: s) values := by
  cases h with
  | done n => exact .done (n + 1)
  | term h rest => exact .term h rest

/-- **A derivation of terms derives each word.** -/
theorem terms_iff {s : Text} {values : List TermValue} (hs : StartsTerms s) :
    Terms s values ↔ List.Forall₂ Term (words s) values := by
  constructor
  · intro h
    clear hs
    induction h with
    | done n =>
      have hwords := words_spaces n []
      rw [List.append_nil] at hwords
      rw [hwords]
      exact .nil
    | term h rest ih =>
      obtain ⟨hne, hvisible⟩ := visible_term h
      rw [words_spaces, words_append hne (space_notMem hvisible) (startsTerms_of_terms rest)]
      exact .cons h ih
  · intro h
    induction hlen : s.length using Nat.strong_induction_on generalizing s values with
    | _ n ih =>
      cases s with
      | nil =>
        cases h
        exact .done 0
      | cons c s =>
        obtain rfl := hs c rfl
        rw [words_space] at h
        by_cases hspace : StartsTerms s
        · exact (ih s.length (hlen ▸ Nat.lt_succ_self _) hspace h rfl).space
        · have hcut := List.takeWhile_append_dropWhile (p := fun c => decide (c ≠ ' ')) (l := s)
          have hne : s.takeWhile (fun c => decide (c ≠ ' ')) ≠ [] := by
            intro hnil
            cases s with
            | nil => exact hspace fun _ h => by cases h
            | cons d s =>
              refine hspace fun c hc => ?_
              obtain rfl := Option.some.inj hc
              by_contra hd
              have hcons : (d :: s).takeWhile (fun c => decide (c ≠ ' ')) =
                  d :: s.takeWhile fun c => decide (c ≠ ' ') :=
                List.takeWhile_cons_of_pos (decide_eq_true hd)
              rw [hcons] at hnil
              cases hnil
          have hnot : ' ' ∉ s.takeWhile (fun c => decide (c ≠ ' ')) := fun hmem =>
            absurd (List.mem_takeWhile_imp hmem) (by decide)
          have hrest : StartsTerms (s.dropWhile fun c => decide (c ≠ ' ')) := by
            intro c hc
            have hhead := List.head?_dropWhile_not (fun c => decide (c ≠ ' ')) s
            rw [hc] at hhead
            simpa using hhead
          generalize s.takeWhile (fun c => decide (c ≠ ' ')) = t at hcut hne hnot
          generalize (s.dropWhile fun c => decide (c ≠ ' ')) = rest at hcut hrest
          subst hcut
          rw [words_append hne hnot hrest] at h
          cases h with
          | cons ht hvalues =>
            have hshort : rest.length < n := by
              rw [← hlen, List.length_cons, List.length_append]
              omega
            exact Terms.term (n := 0) ht (ih _ hshort hrest hvalues rfl)

/-! ## The loop -/

theorem foldlM_words (s : Text) (state : RecordState) :
    (s.splitOn ' ').foldlM addTerm state = (words s).foldlM addTerm state := by
  unfold words
  generalize s.splitOn ' ' = ts
  induction ts generalizing state with
  | nil => rfl
  | cons t ts ih =>
    by_cases ht : t = []
    · subst ht
      have hfilter : ([] :: ts).filter (fun t : Text => decide (t ≠ [])) =
          ts.filter fun t => t ≠ [] := List.filter_cons_of_neg (by simp)
      rw [hfilter, ← ih]
      rfl
    · rw [filter_cons ht, List.foldlM_cons, List.foldlM_cons]
      exact congrArg _ (funext ih)

/-- **The loop reads exactly the terms.** -/
theorem foldlM_addTerm_eq_ok {ts : List Text} (hne : ∀ t ∈ ts, t ≠ []) {s s' : RecordState} :
    ts.foldlM addTerm s = .ok s' ↔
      ∃ values, List.Forall₂ Term ts values ∧ s' = values.foldl RecordState.add s := by
  induction ts generalizing s with
  | nil =>
    constructor
    · intro h
      exact ⟨[], .nil, (Except.ok.inj h).symm⟩
    · rintro ⟨values, hvalues, rfl⟩
      cases hvalues
      rfl
  | cons t ts ih =>
    obtain ⟨ht, hts⟩ := List.forall_mem_cons.mp hne
    rw [List.foldlM_cons, bind_eq_ok]
    constructor
    · rintro ⟨s₁, hadd, hrest⟩
      obtain ⟨value, hterm, rfl⟩ := (addTerm_eq_ok ht).mp hadd
      obtain ⟨values, hvalues, rfl⟩ := (ih hts).mp hrest
      exact ⟨value :: values, .cons hterm hvalues, rfl⟩
    · rintro ⟨values, hvalues, rfl⟩
      cases hvalues with
      | @cons _ value _ values hterm hvalues =>
        exact ⟨s.add value, (addTerm_eq_ok ht).mpr ⟨value, hterm, rfl⟩,
          (ih hts).mpr ⟨values, hvalues, rfl⟩⟩

/-- What the loop has collected. -/
theorem foldl_add (values : List TermValue) (s : RecordState) : values.foldl RecordState.add s =
    { mechanisms := s.mechanisms ++ values.filterMap TermValue.mechanism?
      redirect := (values.filterMap TermValue.redirect?).getLast?.or s.redirect
      seenRedirect := s.seenRedirect + (values.filterMap TermValue.redirect?).length
      seenExp := s.seenExp + (values.filterMap TermValue.exp?).length } := by
  induction values generalizing s with
  | nil =>
    show s = _
    rw [List.filterMap_nil, List.append_nil]
    rfl
  | cons value values ih =>
    rw [List.foldl_cons, ih]
    cases value with
    | mechanism m =>
      show RecordState.mk (s.mechanisms ++ [m] ++ _) _ _ _ = _
      rw [List.append_assoc]
      rfl
    | redirect tokens =>
      have hlast : (values.filterMap TermValue.redirect?).getLast?.or (some tokens) =
          (tokens :: values.filterMap TermValue.redirect?).getLast?.or s.redirect := by
        rw [List.getLast?_cons]
        cases (values.filterMap TermValue.redirect?).getLast? <;> rfl
      show RecordState.mk _ ((values.filterMap TermValue.redirect?).getLast?.or (some tokens))
        (s.seenRedirect + 1 + _) _ = _
      rw [hlast, Nat.add_assoc, Nat.add_comm 1]
      rfl
    | exp tokens =>
      show RecordState.mk _ _ _ (s.seenExp + 1 + _) = _
      rw [Nat.add_assoc, Nat.add_comm 1]
      rfl
    | other => rfl

/-! ## Records -/

theorem printable_of_toLower {c d : Char} (h : c.toLower = d) (hd : Visible d) (hlow : d.toNat < 128) :
    0x20 ≤ c.toNat ∧ c.toNat ≤ 0x7e := by
  by_cases hu : c.isUpper = true
  · have halpha : c.isAlphanum = true := by
      unfold Char.isAlphanum Char.isAlpha
      rw [hu]
      rfl
    obtain ⟨h₁, h₂⟩ := isAlphanum_range halpha
    exact ⟨by omega, by omega⟩
  · rw [Char.toLower_eq_of_not_isUpper hu] at h
    subst h
    exact ⟨le_trans (by decide) hd.1, hd.2⟩

theorem visible_terms {s : Text} {values : List TermValue} (h : Terms s values) :
    ∀ c ∈ s, c = ' ' ∨ Visible c := by
  induction h with
  | done n => exact fun c hc => .inl (List.eq_of_mem_replicate hc)
  | term h _ ih =>
    intro c hc
    simp only [List.mem_append] at hc
    rcases hc with hc | hc | hc
    · exact .inl (List.eq_of_mem_replicate hc)
    · exact .inr ((visible_term h).2 c hc)
    · exact ih c hc

theorem getLast?_eq_head? {α : Type} {l : List α} (h : l.length ≤ 1) : l.getLast? = l.head? := by
  rcases l with _ | ⟨a, _ | ⟨b, l⟩⟩
  · rfl
  · rfl
  · rw [List.length_cons, List.length_cons] at h
    omega

/-- What `isSpfRecord` says. -/
theorem isSpfRecord_iff {text : Text} : isSpfRecord text = true ↔
    asciiLower (text.take 6) = "v=spf1".toList ∧ StartsTerms (text.drop 6) := by
  unfold isSpfRecord
  rw [Bool.and_eq_true, Bool.or_eq_true, decide_eq_true_iff, decide_eq_true_iff, decide_eq_true_iff]
  refine and_congr_right fun hversion => ?_
  have hlength : 6 ≤ text.length := by
    have hlen := congrArg List.length hversion
    unfold asciiLower at hlen
    rw [List.length_map, List.length_take] at hlen
    have hsix : "v=spf1".toList.length = 6 := rfl
    omega
  unfold StartsTerms
  rw [List.head?_drop]
  constructor
  · rintro (hlen | hspace) c hc
    · rw [List.getElem?_eq_none (by omega)] at hc
      cases hc
    · rw [hspace] at hc
      exact (Option.some.inj hc).symm
  · intro h
    rcases hlength.eq_or_lt with heq | hlt
    · exact .inl heq.symm
    · have hget := List.getElem?_eq_getElem hlt
      refine .inr ?_
      rw [hget, h _ hget]

/-- **The SPF parser accepts exactly the grammar.** A text that starts like an SPF record is parsed to a
record if and only if the grammar derives the record from what follows the version. -/
theorem parseSpfRecord_exact {text : Text} (h : isSpfRecord text = true) (record : SpfRecord) :
    parseSpfRecord text = .ok record ↔ Derives (text.drop 6) record := by
  obtain ⟨hversion, hstarts⟩ := isSpfRecord_iff.mp h
  have hloop : ∀ state state' : RecordState,
      ((text.drop 6).splitOn ' ').foldlM addTerm state = .ok state' ↔
        ∃ values, Terms (text.drop 6) values ∧ state' = values.foldl RecordState.add state := by
    intro state state'
    rw [foldlM_words, foldlM_addTerm_eq_ok fun t ht => ne_nil_of_mem_words ht]
    exact exists_congr fun values => and_congr_left' (terms_iff hstarts).symm
  unfold parseSpfRecord
  constructor
  · intro hparse
    split_ifs at hparse with hprintable
    · cases hparse
    · obtain ⟨state, hstate, hparse⟩ := bind_eq_ok.mp hparse
      obtain ⟨values, hterms, rfl⟩ := (hloop _ _).mp hstate
      rw [foldl_add] at hparse
      dsimp only at hparse
      rw [Nat.zero_add, Nat.zero_add, Option.or_none, List.nil_append] at hparse
      split_ifs at hparse with hredirect hexp
      · cases hparse
      · cases hparse
      · obtain rfl := Except.ok.inj hparse
        refine ⟨values, hterms, not_lt.mp hredirect, not_lt.mp hexp, rfl, ?_⟩
        exact getLast?_eq_head? (not_lt.mp hredirect)
  · rintro ⟨values, hterms, hredirect, hexp, hmechanisms, htarget⟩
    have hprintable : ¬ (text.any fun c => decide (c.toNat < 0x20) || decide (0x7e < c.toNat)) = true := by
      rw [List.any_eq_true]
      rintro ⟨c, hc, hbad⟩
      rw [Bool.or_eq_true, decide_eq_true_iff, decide_eq_true_iff] at hbad
      rw [← List.take_append_drop 6 text] at hc
      rcases List.mem_append.mp hc with hc | hc
      · have hlower : c.toLower ∈ ['v', '=', 's', 'p', 'f', '1'] := by
          have hlist : (text.take 6).map Char.toLower = ['v', '=', 's', 'p', 'f', '1'] := hversion
          rw [← hlist]
          exact List.mem_map_of_mem hc
        have hprint : 0x20 ≤ c.toNat ∧ c.toNat ≤ 0x7e := by
          simp only [List.mem_cons, List.not_mem_nil, or_false] at hlower
          rcases hlower with h | h | h | h | h | h <;>
            exact printable_of_toLower h (by decide) (by decide)
        omega
      · rcases visible_terms hterms c hc with rfl | hvisible
        · revert hbad
          decide
        · unfold Visible at hvisible
          omega
    rw [if_neg hprintable]
    refine bind_eq_ok.mpr ⟨_, (hloop _ _).mpr ⟨values, hterms, rfl⟩, ?_⟩
    rw [foldl_add]
    dsimp only
    rw [Nat.zero_add, Nat.zero_add, Option.or_none, List.nil_append, if_neg (not_lt.mpr hredirect),
      if_neg (not_lt.mpr hexp), getLast?_eq_head? hredirect, ← hmechanisms, ← htarget]

theorem parseSpfRecord_exact_example :
    Derives " ip4:10.0.0.0/8 -all".toList
      { mechanisms := [
          { qualifier := .pass, term := "ip4:10.0.0.0/8".toList,
            kind := .ip4 { family := .four, bytes := [10, 0, 0, 0] } 8 },
          { qualifier := .fail, term := "-all".toList, kind := .all }]
        redirect := none } :=
  (@parseSpfRecord_exact "v=spf1 ip4:10.0.0.0/8 -all".toList (by decide) _).mp (by decide +kernel)

end BunMail.Spf
