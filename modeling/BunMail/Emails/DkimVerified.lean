import Mathlib
import BunMail.Emails.DkimRoundTrip

/-!
# A signed message passes

The field that `dkimSignMessage` puts in front is read back with the tags it was made of, the data of the
verifier is the data that was signed, and the published key verifies it.
-/

namespace BunMail.Emails.DkimSigner

open CodeUnits Lines Inbound.DkimCanonical Inbound.DkimVerifier Folding

variable {u : UInt16} {s name value domain selector bodyHash : CodeUnits} {algorithm : Algorithm}
  {names : List CodeUnits}

/-! ## The tags of a signature -/

/-- The tags before `h=`. -/
def signaturePairs (algorithm : Algorithm) (domain selector bodyHash : CodeUnits) : Tags :=
  [(of "v", of "1"), (of "a", algorithm.name), (of "c", of "relaxed/relaxed"), (of "d", domain),
    (of "q", of "dns/txt"), (of "s", selector), (of "bh", bodyHash)]

theorem signatureTags_eq : signatureTags algorithm domain selector bodyHash names =
    (signaturePairs algorithm domain selector bodyHash).map tagOf ++ [of "h=" ++ [0x3a].intercalate names] := rfl

/-- What stands in those tags has no white space and no semicolon. -/
def Solitary (s : CodeUnits) : Prop := ∀ u ∈ s, isFws u = false ∧ badTagValueChar u = false ∧ u < 0x100

theorem solitary_host (h : isSelector value = true) : Solitary value := fun u hu =>
  have hunit := valueUnit_host (unit_of_selector h hu)
  ⟨hunit.fws, hunit.good, UInt16.lt_trans hunit.ascii (by decide)⟩

theorem solitary_base64 (bytes : List UInt8) : Solitary (Base64.encode bytes) := fun _ hu =>
  base64_unit (Base64.mem_encode hu)

theorem solitary_pairs (algorithm : Algorithm) (hdomain : isSelector domain = true) (hselector : isSelector selector = true)
    (hhash : Solitary bodyHash) : ∀ pair ∈ signaturePairs algorithm domain selector bodyHash, Solitary pair.2 := by
  have hfixed : ∀ value ∈ [of "1", of "rsa-sha256", of "ed25519-sha256", of "relaxed/relaxed", of "dns/txt"],
      Solitary value := by
    intro value hvalue u hu
    have hall : [of "1", of "rsa-sha256", of "ed25519-sha256", of "relaxed/relaxed", of "dns/txt"].all (fun value =>
        value.all fun u => !isFws u && !badTagValueChar u && decide (u < 0x100)) = true := by decide +kernel
    have hunit := List.all_eq_true.mp (List.all_eq_true.mp hall value hvalue) u hu
    simp only [Bool.and_eq_true, Bool.not_eq_true', decide_eq_true_eq] at hunit
    exact ⟨hunit.1.1, hunit.1.2, hunit.2⟩
  have halgorithm : Solitary algorithm.name := by cases algorithm <;> exact hfixed _ (by simp [Algorithm.name])
  intro pair hpair
  simp only [signaturePairs, List.mem_cons, List.not_mem_nil, or_false] at hpair
  rcases hpair with rfl | rfl | rfl | rfl | rfl | rfl | rfl
  · exact hfixed _ (by simp)
  · exact halgorithm
  · exact hfixed _ (by simp)
  · exact solitary_host hdomain
  · exact hfixed _ (by simp)
  · exact solitary_host hselector
  · exact hhash

/-- The names of those tags. -/
theorem names_pairs : (signaturePairs algorithm domain selector bodyHash).map Prod.fst =
    [of "v", of "a", of "c", of "d", of "q", of "s", of "bh"] := rfl

theorem tagName_of_pairs {pair : CodeUnits × CodeUnits}
    (h : pair ∈ signaturePairs algorithm domain selector bodyHash) :
    isTagName pair.1 = true ∧ pair.1 ≠ of "h" ∧ pair.1 ≠ of "b" := by
  have hname : pair.1 ∈ [of "v", of "a", of "c", of "d", of "q", of "s", of "bh"] := by
    have hmem := List.mem_map_of_mem (f := Prod.fst) h
    rwa [names_pairs] at hmem
  have hall : [of "v", of "a", of "c", of "d", of "q", of "s", of "bh"].all (fun name =>
      isTagName name && decide (name ≠ of "h") && decide (name ≠ of "b")) = true := by decide +kernel
  have hgood := List.all_eq_true.mp hall _ hname
  simp only [Bool.and_eq_true, decide_eq_true_eq] at hgood
  exact ⟨hgood.1.1, hgood.1.2, hgood.2⟩

theorem plain_of_solid (h : ∀ u ∈ s, isFws u = false) : Plain s := fun u hu => (not_wsp (h u hu)).2

theorem plainTag_pairs (algorithm : Algorithm) (hdomain : isSelector domain = true) (hselector : isSelector selector = true)
    (hhash : Solitary bodyHash) : ∀ pair ∈ signaturePairs algorithm domain selector bodyHash, PlainTag pair := by
  intro pair hpair
  obtain ⟨hname, hh, hb⟩ := tagName_of_pairs hpair
  obtain ⟨-, hunits⟩ := tagUnit_of_name hname
  have hvalue := solitary_pairs algorithm hdomain hselector hhash pair hpair
  refine ⟨plain_of_solid fun u hu => ?_, fun hmem => (isTagUnit_spec (hunits _ hmem)).2.1 rfl, hh, hb⟩
  rcases List.mem_append.mp hu with hu | hu
  · exact (isTagUnit_spec (hunits u hu)).1
  · rcases List.mem_cons.mp hu with rfl | hu
    · decide
    · exact (hvalue u hu).1

/-! ## The field -/

theorem latin_of_all (h : s.all (decide <| · < 0x100) = true) : Latin s := fun u hu =>
  of_decide_eq_true (List.all_eq_true.mp h u hu)

theorem latin_append {a b : CodeUnits} (ha : Latin a) (hb : Latin b) : Latin (a ++ b) := fun u hu =>
  (List.mem_append.mp hu).elim (ha u) (hb u)

theorem latin_sep {sep : CodeUnits} (h : Sep sep) : Latin sep := by
  rcases h with rfl | rfl <;> exact latin_of_all (by decide)

theorem lt_of_good (h : badTagValueChar u = false) : u < 0x100 := by
  unfold badTagValueChar isFws at h
  simp only [Bool.not_eq_false', Bool.or_eq_true, Bool.and_eq_true, decide_eq_true_eq, beq_iff_eq,
    UInt16.le_iff_toNat_le, UInt16.lt_iff_toNat_lt, ← UInt16.toNat_inj] at h ⊢
  simp only [UInt16.reduceToNat] at h ⊢
  omega

theorem latin_readable {spec : Spec} (h : spec.Readable) : Latin spec.text := by
  refine latin_append (latin_sep h.sep) (latin_append (fun u hu => ?_) fun u hu => ?_)
  · have hunit := (tagUnit_of_name h.name).2 u hu
    unfold isTagUnit isLetter isDigit at hunit
    grind
  · rcases List.mem_cons.mp hu with rfl | hu
    · decide
    · exact lt_of_good (h.value u hu)

/-- What the verifier needs of the folded field of a signature. -/
structure SignedField (algorithm : Algorithm) (domain selector bodyHash : CodeUnits) (names : List CodeUnits)
    (form value raw : CodeUnits) : Prop where
  rows : ∃ first more, FoldedRows first more ∧ raw = joinLines 0x0d 0x0a (first :: more)
  latin : Latin raw
  name : (headerField raw).name = of "dkim-signature"
  form : emptySignatureValue (relaxedHeader raw) = form
  tags : ∃ tags h b, parseTagList (fieldValue raw) = some tags ∧ splitList h = names ∧
    stripFws b = value ∧ SignatureTags tags algorithm domain selector bodyHash h b

/-- The tags as they are read. -/
theorem tags_read {specs : List Spec} {h b : CodeUnits}
    (hspecs : specs.map Spec.pair = signaturePairs algorithm domain selector bodyHash)
    (hvalues : ∀ pair ∈ signaturePairs algorithm domain selector bodyHash, Solitary pair.2) :
    specs.map (fun spec => (spec.name, trimFws spec.value)) ++ [(of "h", h), (of "b", b)] =
      signaturePairs algorithm domain selector bodyHash ++ [(of "h", h), (of "b", b)] := by
  have hread : specs.map (fun spec => (spec.name, trimFws spec.value)) =
      (specs.map Spec.pair).map fun pair => (pair.1, trimFws pair.2) := by
    rw [List.map_map]
    rfl
  rw [hread, hspecs]
  congr 1
  refine (List.map_congr_left fun pair hpair => ?_).trans (List.map_id _)
  rw [trimFws_solid fun u hu => (hvalues pair hpair u hu).1]
  rfl

theorem signatureTags_read {h b : CodeUnits} : SignatureTags
    (signaturePairs algorithm domain selector bodyHash ++ [(of "h", h), (of "b", b)])
    algorithm domain selector bodyHash h b := by
  have hnames : ((signaturePairs algorithm domain selector bodyHash ++ [(of "h", h), (of "b", b)]).map Prod.fst) =
      [of "v", of "a", of "c", of "d", of "q", of "s", of "bh", of "h", of "b"] := rfl
  have hnodup : ((signaturePairs algorithm domain selector bodyHash ++ [(of "h", h), (of "b", b)]).map Prod.fst).Nodup := by
    rw [hnames]
    decide +kernel
  have hsome : ∀ name value, (of name, value) ∈ signaturePairs algorithm domain selector bodyHash ++
      [(of "h", h), (of "b", b)] → Tags.get (signaturePairs algorithm domain selector bodyHash ++
      [(of "h", h), (of "b", b)]) name = some value := fun name value hmem => lookup_of_mem hnodup hmem
  have hnone : ∀ name, of name ∉ [of "v", of "a", of "c", of "d", of "q", of "s", of "bh", of "h", of "b"] →
      Tags.get (signaturePairs algorithm domain selector bodyHash ++ [(of "h", h), (of "b", b)]) name = none := by
    intro name hout
    refine lookup_eq_none ?_
    rw [hnames]
    exact hout
  constructor
  case i | l | t | x => exact hnone _ (by decide +kernel)
  all_goals exact hsome _ _ (by simp [signaturePairs])

/-- **Folding is undone by reading**: whatever stands in `b=`, the field is read with the tags it was made of, and
what the signature covers of it is the same. -/
theorem exists_signedField (algorithm : Algorithm) (hdomain : isSelector domain = true) (hselector : isSelector selector = true)
    (hhash : Solitary bodyHash) (hne : names ≠ []) (hnames : ∀ n ∈ names, n ∈ signedNames) :
    ∃ form, ∀ value, Solitary value → SignedField algorithm domain selector bodyHash names form value
      (foldSignature (signatureTags algorithm domain selector bodyHash names ++ [of "b=" ++ value])) := by
  obtain ⟨entry, entries, rfl⟩ := List.exists_cons_of_ne_nil hne
  have hvalues := solitary_pairs algorithm hdomain hselector hhash
  have hentries : ∀ e ∈ entry :: entries, Plain e ∧ 0x3a ∉ e := fun e he =>
    have hunits := (plain_signedNames (hnames e he)).2
    ⟨plain_of_solid fun u hu => (hunits u hu).1, fun hmem => (hunits _ hmem).2 rfl⟩
  obtain ⟨specs, sep, parts, sep', hspecs, hseps, hsep, hparts, hsep', hfold⟩ :=
    foldSignature_spec (plainTag_pairs algorithm hdomain hselector hhash) hentries
  have hspec := parts_spec hnames hparts
  let hTag : Spec := ⟨sep, of "h", [0x3a].intercalate (entry :: parts)⟩
  have hlist : ∀ u ∈ hTag.value, badTagValueChar u = false ∧ u < 0x100 := by
    intro u hu
    rcases mem_intercalate hu with rfl | ⟨part, hpart, hu⟩
    · decide
    · have hunit := (hspec part hpart).2.2 u hu
      exact ⟨hunit.1, hunit.2.2⟩
  have hpair : ∀ spec ∈ specs, (spec.name, spec.value) ∈ signaturePairs algorithm domain selector bodyHash :=
    fun spec hmem => hspecs ▸ List.mem_map_of_mem (f := Spec.pair) hmem
  have hreadable : ∀ spec ∈ specs ++ [hTag], spec.Readable := by
    intro spec hmem
    rcases List.mem_append.mp hmem with hmem | hmem
    · exact ⟨hseps spec hmem, (tagName_of_pairs (hpair spec hmem)).1, fun u hu => (hvalues _ (hpair spec hmem) u hu).2.1⟩
    · rw [List.mem_singleton.mp hmem]
      have hname : isTagName (of "h") = true := by decide +kernel
      exact ⟨hsep, hname, fun u hu => (hlist u hu).1⟩
  have hplaced : ∀ spec ∈ specs ++ [hTag], spec.Placed ∧ spec.name ≠ of "b" := by
    intro spec hmem
    have hgood := hreadable spec hmem
    refine ⟨⟨hgood.sep, hgood.name, fun hsemi => absurd (hgood.value _ hsemi) (by decide)⟩, ?_⟩
    rcases List.mem_append.mp hmem with hmem | hmem
    · exact (tagName_of_pairs (hpair spec hmem)).2.2
    · rw [List.mem_singleton.mp hmem]
      exact (by decide : of "h" ≠ of "b")
  obtain ⟨form, hform⟩ := exists_emptied (List.append_ne_nil_of_right_ne_nil specs (List.cons_ne_nil hTag [])) hplaced
  refine ⟨form, fun value hvalue => ?_⟩
  rw [signatureTags_eq]
  obtain ⟨broken, hbroken, first, more, hrows, heq, htext⟩ := hfold value (plain_of_solid fun u hu => (hvalue u hu).1)
  have hbad : ∀ u ∈ broken, badTagValueChar u = false ∧ u < 0x100 := by
    intro u hu
    rcases hbroken.mem u hu with hu | rfl | rfl | rfl
    · exact (hvalue u hu).2
    · decide
    · decide
    · decide
  let bTag : Spec := ⟨sep', of "b", broken⟩
  have hraw := heq.trans htext
  generalize hrest : (specs ++ [hTag]).flatMap (fun spec => spec.text ++ [0x3b]) ++ (sep' ++ (of "b=" ++ broken)) =
    rest at hraw
  have hcut : cut? [0x3a] (of "DKIM-Signature:" ++ rest) = some (of "DKIM-Signature", rest) :=
    cut?_eq_some.mpr (firstCut_singleton.mpr ⟨rfl, by decide⟩)
  constructor
  case rows => exact ⟨first, more, hrows, heq⟩
  case latin =>
    rw [hraw, ← hrest]
    have hfixed : Latin (of "DKIM-Signature:") ∧ Latin (of "b=") ∧ Latin [0x3b] :=
      ⟨latin_of_all (by decide +kernel), latin_of_all (by decide), latin_of_all (by decide)⟩
    refine latin_append hfixed.1 (latin_append (fun u hu => ?_) (latin_append ?_ (latin_append hfixed.2.1 ?_)))
    · obtain ⟨spec, hmem, hu⟩ := List.mem_flatMap.mp hu
      exact latin_append (latin_readable (hreadable spec hmem)) hfixed.2.2 u hu
    · exact latin_sep hsep'
    · exact fun u hu => (hbad u hu).2
  case name =>
    rw [hraw, headerField, hcut]
    exact (by decide +kernel : lowerAscii (trimFws (of "DKIM-Signature")) = of "dkim-signature")
  case form =>
    rw [hraw, ← hrest]
    exact hform sep' broken hsep' fun hsemi => absurd (hbad _ hsemi).1 (by decide)
  case tags =>
    have hread : ∀ spec ∈ (specs ++ [hTag]) ++ [bTag], spec.Readable := by
      intro spec hmem
      rcases List.mem_append.mp hmem with hmem | hmem
      · exact hreadable spec hmem
      · rw [List.mem_singleton.mp hmem]
        have hname : isTagName (of "b") = true := by decide +kernel
        exact ⟨hsep', hname, fun u hu => (hbad u hu).1⟩
    have hnodup : (((specs ++ [hTag]) ++ [bTag]).map Spec.name).Nodup := by
      have hmap : specs.map Spec.name = (specs.map Spec.pair).map Prod.fst := by
        rw [List.map_map]
        rfl
      rw [List.map_append, List.map_append, hmap, hspecs, names_pairs]
      exact (by decide +kernel : [of "v", of "a", of "c", of "d", of "q", of "s", of "bh", of "h", of "b"].Nodup)
    have hall := parseTagList_specs hread hnodup
    rw [List.map_append, List.map_append, List.append_assoc] at hall
    refine ⟨_, trimFws hTag.value, trimFws broken, ?_, splitList_entries hnames hparts, ?_, signatureTags_read⟩
    · rw [hraw, fieldValue, hcut, ← tags_read hspecs hvalues, ← hrest]
      exact hall
    · rw [stripFws_trimFws, hbroken.strip]
      exact stripFws_solid fun u hu => (hvalue u hu).1

/-! ## The data -/

theorem selectLast_congr {lists lists' : CodeUnits → List HeaderField} (h : ∀ n ∈ names, lists n = lists' n) :
    selectLast lists names = selectLast lists' names := by
  induction names generalizing lists lists' with
  | nil => rfl
  | cons name names ih =>
    have hname := h name List.mem_cons_self
    have hrest : ∀ n ∈ names, lists n = lists' n := fun n hn => h n (List.mem_cons_of_mem _ hn)
    rw [selectLast, selectLast, hname]
    cases (lists' name).getLast? with
    | none => exact ih hrest
    | some field =>
      refine congrArg (field :: ·) (ih fun n hn => ?_)
      by_cases heq : n = name
      · rw [heq, Function.update_self, Function.update_self]
      · rw [Function.update_of_ne heq, Function.update_of_ne heq, hrest n hn]

/-- A field of another name is not selected. -/
theorem selectHeaders_cons {field : HeaderField} (fields : List HeaderField) (h : field.name ∉ names) :
    selectHeaders (field :: fields) names = selectHeaders fields names := by
  refine selectLast_congr fun n hn => ?_
  unfold byName
  rw [List.filter_cons_of_neg]
  rw [decide_eq_true_iff]
  rintro rfl
  exact h hn

/-- The verifier computes what was signed. -/
theorem data_eq {form value raw empty : CodeUnits} (fields : List HeaderField) (hnames : ∀ n ∈ names, n ∈ signedNames)
    (hraw : SignedField algorithm domain selector bodyHash names form value raw)
    (hempty : SignedField algorithm domain selector bodyHash names form [] empty) :
    signedHeaderData (headerField raw :: fields) (headerField raw) .relaxed names =
      signedHeaderData fields ⟨of "dkim-signature", empty⟩ .relaxed names := by
  have hout : (headerField raw).name ∉ names := by
    rw [hraw.name]
    intro hmem
    exact absurd (hnames _ hmem) (by decide +kernel)
  unfold signedHeaderData
  dsimp only
  rw [selectHeaders_cons fields hout]
  show latin1 (_ ++ emptySignatureValue (relaxedHeader raw)) = latin1 (_ ++ emptySignatureValue (relaxedHeader empty))
  rw [hraw.form, hempty.form]

/-! ## The key -/

section Key

variable {κ π : Type} (c : Primitives κ π)

/-- The record of a public key. -/
def keyRecord (algorithm : Algorithm) (der : List UInt8) : CodeUnits :=
  of "v=DKIM1; k=" ++ (if algorithm = .rsaSha256 then of "rsa" else of "ed25519") ++ of "; p=" ++ Base64.encode der

variable {der : List UInt8} {pub : π}

theorem parseTagList_record (algorithm : Algorithm) (der : List UInt8) :
    parseTagList (keyRecord algorithm der) = some [(of "v", of "DKIM1"),
      (of "k", if algorithm = .rsaSha256 then of "rsa" else of "ed25519"), (of "p", Base64.encode der)] := by
  have hp := solitary_base64 der
  have hspace : ∀ u ∈ [0x20], isFws u = true := by decide
  have hnames : isTagName (of "v") = true ∧ isTagName (of "k") = true ∧ isTagName (of "p") = true := by decide +kernel
  have hlast : 0x3b ∉ [0x20] ++ (of "p" ++ 0x3d :: Base64.encode der) := by
    intro hmem
    rcases List.mem_append.mp hmem with hmem | hmem
    · exact absurd hmem (by decide)
    · rcases List.mem_append.mp hmem with hmem | hmem
      · exact absurd hmem (by decide)
      · rcases List.mem_cons.mp hmem with hmem | hmem
        · exact absurd hmem (by decide)
        · exact absurd (hp _ hmem).2.1 (by decide)
  have hread : ∀ k ∈ [of "rsa", of "ed25519"], parseTagList (of "v=DKIM1; k=" ++ k ++ of "; p=" ++ Base64.encode der) =
      some [(of "v", of "DKIM1"), (of "k", k), (of "p", Base64.encode der)] := by
    intro k hk
    have hgood : ∀ k ∈ [of "rsa", of "ed25519"], (∀ u ∈ k, badTagValueChar u = false) ∧ trimFws k = k ∧
        0x3b ∉ [0x20] ++ (of "k" ++ 0x3d :: k) := by decide +kernel
    obtain ⟨hvalue, htrim, hplain⟩ := hgood k hk
    have htext : of "v=DKIM1; k=" ++ k ++ of "; p=" ++ Base64.encode der =
        [[] ++ (of "v" ++ 0x3d :: of "DKIM1"), [0x20] ++ (of "k" ++ 0x3d :: k)].flatMap (· ++ [0x3b]) ++
          ([0x20] ++ (of "p" ++ 0x3d :: Base64.encode der)) := by
      simp [of]
    have hclosed : ∀ part ∈ [[] ++ (of "v" ++ 0x3d :: of "DKIM1"), [0x20] ++ (of "k" ++ 0x3d :: k)], 0x3b ∉ part := by
      intro part hpart
      simp only [List.mem_cons, List.not_mem_nil, or_false] at hpart
      rcases hpart with rfl | rfl
      · decide
      · exact hplain
    have htrims : trimFws (of "DKIM1") = of "DKIM1" ∧ trimFws (Base64.encode der) = Base64.encode der :=
      ⟨by decide +kernel, trimFws_solid fun u hu => (hp u hu).1⟩
    have hv : ∀ texts, parseSpecs (([] ++ (of "v" ++ 0x3d :: of "DKIM1")) :: texts) [] =
        parseSpecs texts [(of "v", trimFws (of "DKIM1"))] := fun texts =>
      parseSpecs_cons (by decide) hnames.1 rfl (by decide)
    have hnew : List.lookup (of "p") [(of "v", of "DKIM1"), (of "k", k)] = none := by
      refine lookup_eq_none ?_
      exact (by decide +kernel : of "p" ∉ [of "v", of "k"])
    unfold parseTagList
    rw [htext, splitOn_closed hclosed hlast, List.cons_append, hv, htrims.1, List.cons_append,
      List.nil_append, parseSpecs_cons hspace hnames.2.1 (by decide +kernel) hvalue, htrim]
    show parseSpecs [[0x20] ++ (of "p" ++ 0x3d :: Base64.encode der)] [(of "v", of "DKIM1"), (of "k", k)] = _
    rw [parseSpecs_cons hspace hnames.2.2 hnew fun u hu => (hp u hu).2.1, htrims.2]
    rfl
  unfold keyRecord
  cases algorithm
  · exact hread (of "rsa") (by simp)
  · exact hread (of "ed25519") (by simp)

theorem readKey_record (hder : der ≠ []) (himport : importKey c algorithm.keyType der = some pub)
    (hlong : algorithm = .rsaSha256 → MIN_RSA_BITS ≤ c.modulusLength pub) :
    readKey c (keyRecord algorithm der) = .ok ⟨algorithm.keyType, pub, none, [[]]⟩ := by
  have hbind : ∀ {α β : Type} (x : α) (f : α → Except Failure β), (Except.ok x >>= f) = f x := fun _ _ => rfl
  have hstrip : stripFws (Base64.encode der) = Base64.encode der :=
    stripFws_solid fun u hu => (solitary_base64 der u hu).1
  have hfull : (Base64.encode der).isEmpty = false :=
    Bool.eq_false_iff.mpr fun hnil => Base64.encode_ne_nil hder (List.isEmpty_iff.mp hnil)
  have hbase : (!Base64.isBase64 (Base64.encode der) || (Base64.encode der).length % 4 != 0) = false := by
    rw [Base64.isBase64_encode hder, Base64.length_encode]
    rfl
  generalize hname : (if algorithm = .rsaSha256 then of "rsa" else of "ed25519") = name
  have htype : keyTypeOf (lowerAscii name) = some algorithm.keyType := by
    rw [← hname]
    cases algorithm <;> decide +kernel
  have hshort : decide (algorithm.keyType = .rsa ∧ c.modulusLength pub < MIN_RSA_BITS) = false := by
    refine decide_eq_false fun hbad => ?_
    cases algorithm with
    | rsaSha256 => exact absurd hbad.2 (Nat.not_lt.mpr (hlong rfl))
    | ed25519Sha256 => cases hbad.1
  let tags : Tags := [(of "v", of "DKIM1"), (of "k", name), (of "p", Base64.encode der)]
  have hnodup : (tags.map Prod.fst).Nodup := (by decide +kernel : [of "v", of "k", of "p"].Nodup)
  have hv : tags.get "v" = some (of "DKIM1") := lookup_of_mem hnodup (by simp [tags])
  have hk : tags.get "k" = some name := lookup_of_mem hnodup (by simp [tags])
  have hp : tags.get "p" = some (Base64.encode der) := lookup_of_mem hnodup (by simp [tags])
  have hnone : ∀ name, of name ∉ [of "v", of "k", of "p"] → tags.get name = none := fun name hout => lookup_eq_none hout
  have hversion : decide (of "DKIM1" ≠ of "DKIM1" ∨ (tags.head?.map Prod.fst) ≠ some (of "v")) = false := by
    simp [tags]
  have hflags : splitList [] = [[]] := by decide +kernel
  have htags : parseTagList (keyRecord algorithm der) = some tags := by
    rw [parseTagList_record, hname]
  unfold readKey
  simp only [htags, required_some, hbind, hv, hk, hp, hnone "s" (by decide +kernel), hnone "h" (by decide +kernel),
    hnone "t" (by decide +kernel), Option.any_some, Option.any_none, hversion, reject_false, hstrip, hfull, hbase,
    Option.getD_some, Option.getD_none, htype, Base64.decode_encode, himport, hshort, hflags]
  rfl

/-- What the code relies on: a public key verifies what its private key signs. -/
structure KeyPair (key : κ) (pub : π) : Prop where
  signs : ∀ digest data, c.sign digest data key ≠ []
  verifies : ∀ digest data, c.verify digest data pub (c.sign digest data key) = true

/-- The record of the selector, in one string or in several, is that of the public key. -/
structure Published (resolve : CodeUnits → Resolved) (algorithm : Algorithm) (domain selector : CodeUnits) (pub : π) :
    Prop where
  record : ∃ der strings others, resolve (keyName selector domain) = .records (strings :: others) ∧
    strings.flatten = keyRecord algorithm der ∧ der ≠ [] ∧ importKey c algorithm.keyType der = some pub
  long : algorithm = .rsaSha256 → MIN_RSA_BITS ≤ c.modulusLength pub

variable {resolve : CodeUnits → Resolved} {key : κ}

theorem Published.found (h : Published c resolve algorithm domain selector pub) :
    lookupKey c resolve (keyName selector domain) = .ok ⟨algorithm.keyType, pub, none, [[]]⟩ := by
  obtain ⟨der, strings, others, hresolve, hrecord, hder, himport⟩ := h.record
  unfold lookupKey
  rw [hresolve]
  dsimp only
  rw [hrecord, readKey_record c hder himport h.long]

theorem KeyPair.accepts (h : KeyPair c key pub) (data : List UInt8) (bodyHash : CodeUnits) :
    signatureVerifies c data (readSignature algorithm domain selector bodyHash names (signWith c algorithm data key))
      pub = true := by
  cases algorithm <;> exact h.verifies _ _

theorem KeyPair.signWith_ne_nil (h : KeyPair c key pub) (data : List UInt8) : signWith c algorithm data key ≠ [] := by
  cases algorithm <;> exact h.signs _ _

/-! ## The message -/

variable {message signed : List UInt8} {dkim : DkimOptions}

/-- What is signed, with the fields and the body of the wire text. -/
def signedField (c : Primitives κ π) (algorithm : Algorithm) (key : κ) (message : List UInt8) (dkim : DkimOptions) : CodeUnits :=
  let (fields, body) := splitMessage (latin1 (wireText message))
  let names := signedHeaderNames fields
  let tags := signatureTags algorithm (signingDomain c dkim) (signingSelector c dkim)
    (hashBase64 c (canonicalBody body .relaxed)) names
  foldSignature (tags ++ [of "b=" ++ Base64.encode (signWith c algorithm (signatureData fields names tags) key)])

theorem dkimSignMessage_ok (hkey : c.createPrivateKey dkim.privateKey = some key)
    (halgorithm : algorithmOf c key = .ok algorithm) (h : dkimSignMessage c message dkim = .ok signed) :
    isDomainName (signingDomain c dkim) = true ∧ isSelector (signingSelector c dkim) = true ∧
      signed = latin1 (signedField c algorithm key message dkim ++ crlf ++ wireText message) := by
  unfold dkimSignMessage at h
  dsimp only at h
  cases hdomain : isDomainName (signingDomain c dkim) with
  | false =>
    rw [hdomain] at h
    cases h
  | true =>
    cases hselector : isSelector (signingSelector c dkim) with
    | false =>
      rw [hdomain, hselector] at h
      cases h
    | true =>
      rw [hdomain, hselector, hkey] at h
      refine ⟨rfl, rfl, ?_⟩
      have hbind : ∀ {α β : Type} (x : α) (f : α → Except DkimSignError β), (Except.ok x >>= f) = f x := fun _ _ => rfl
      simp only [Bool.not_true, Bool.false_eq_true, if_false, Option.elim, hbind, halgorithm] at h
      exact (Except.ok.inj h).symm

/-- With the checks of the key record passed, the verdict is that of the signature. -/
theorem checkKey_pass {fields : List HeaderField} {field : HeaderField} {signature : ParsedSignature}
    (halgorithm : signature.algorithm = algorithm) (hidentity : signature.identityDomain = none)
    (hgood : signatureVerifies c (signedHeaderData fields field signature.headerCanon signature.signedHeaders)
      signature pub = true) :
    checkKey c fields field signature ⟨algorithm.keyType, pub, none, [[]]⟩ = (.pass, none, false) := by
  unfold checkKey
  dsimp only
  rw [halgorithm, if_neg (not_not_intro rfl), hidentity, hgood]
  rfl

/-- **What BunMail signs passes**: with the public key published under the selector, the verifier's first
result is a pass for the signing domain. -/
theorem signed_passes (now : ℕ) (hhead : (message.map UInt8.toUInt16).head?.any isWsp = false)
    (hkey : c.createPrivateKey dkim.privateKey = some key) (halgorithm : algorithmOf c key = .ok algorithm)
    (hpair : KeyPair c key pub)
    (hpublished : Published c resolve algorithm (signingDomain c dkim) (signingSelector c dkim) pub)
    (hsigned : dkimSignMessage c message dkim = .ok signed) :
    (verifyDkimSignatures c resolve now signed).head? = some
      { result := .pass, signingDomain := some (signingDomain c dkim), selector := some (signingSelector c dkim)
        reason := none, testing := false } := by
  obtain ⟨hdomain, hselector, rfl⟩ := dkimSignMessage_ok c hkey halgorithm hsigned
  generalize hfields : (splitMessage (latin1 (wireText message))).1 = fields
  generalize hbody : (splitMessage (latin1 (wireText message))).2 = body
  have hhost : isSelector (signingDomain c dkim) = true := by
    unfold isDomainName at hdomain
    exact (Bool.and_eq_true _ _ ▸ hdomain).1
  have hnames : ∀ n ∈ signedHeaderNames fields, n ∈ signedNames := fun n hn => mem_signedHeaderNames hn
  have hfrom : of "from" ∈ signedHeaderNames fields := by
    refine List.count_pos_iff.mp ?_
    rw [count_signedHeaderNames (by decide +kernel)]
    omega
  have hnil : [] ∉ signedHeaderNames fields := fun hmem => (plain_signedNames (hnames _ hmem)).1 rfl
  -- the field is read as it was written
  obtain ⟨form, hform⟩ := exists_signedField algorithm hhost hselector
    (solitary_base64 (c.sha256 (latin1 (canonicalBody body .relaxed))).toList) (List.ne_nil_of_mem hfrom) hnames
  have hhash : (c.sha256 (latin1 (canonicalBody body .relaxed))).toList ≠ [] := by
    intro hnone
    have hlength := congrArg List.length hnone
    rw [Vector.length_toList] at hlength
    cases hlength
  let tags := signatureTags algorithm (signingDomain c dkim) (signingSelector c dkim)
    (hashBase64 c (canonicalBody body .relaxed)) (signedHeaderNames fields)
  let data := signatureData fields (signedHeaderNames fields) tags
  generalize hraw : foldSignature (tags ++ [of "b=" ++ Base64.encode (signWith c algorithm data key)]) = raw
  have hfield : signedField c algorithm key message dkim = raw := by
    rw [← hraw]
    unfold signedField
    dsimp only
    rw [hfields, hbody]
  have hread : SignedField algorithm (signingDomain c dkim) (signingSelector c dkim)
      (hashBase64 c (canonicalBody body .relaxed)) (signedHeaderNames fields) form
      (Base64.encode (signWith c algorithm data key)) raw := hraw ▸ hform _ (solitary_base64 _)
  obtain ⟨first, more, hrows, hlines⟩ := hread.rows
  have hsplit := splitMessage_signed hrows (wire_wireText message) (latin_wireText message) (wireText_ne_nil message)
    (head?_wireText hhead) (hlines ▸ hread.latin)
  rw [← hlines, hfields, hbody] at hsplit
  obtain ⟨read, h, b, hparsed, hh, hb, htags⟩ := hread.tags
  have hsignature := parseSignature_of c hparsed htags hdomain hselector hhash (hpair.signWith_ne_nil c data) hb hh hnil hfrom
  have hdata : signedHeaderData (headerField raw :: fields) (headerField raw) .relaxed (signedHeaderNames fields) = data := by
    refine data_eq fields hnames hread ?_
    have hempty := hform [] (by simp [Solitary])
    rwa [List.append_nil] at hempty
  -- the verdict
  have hverdict : verifyOne c resolve now (headerField raw :: fields) body (headerField raw) = (.pass, none, false) := by
    unfold verifyOne
    rw [show (headerField raw).raw = raw from rfl, hsignature]
    dsimp only [readSignature, Option.any_none, Option.elim_none]
    have hsame : ¬hashBase64 c (canonicalBody body .relaxed) ≠
        Base64.encode (c.sha256 (latin1 (canonicalBody body .relaxed))).toList := fun hne => hne rfl
    rw [if_neg Bool.false_ne_true]
    refine (if_neg hsame).trans ?_
    rw [hpublished.found]
    refine checkKey_pass c rfl rfl ?_
    rw [hdata]
    exact hpair.accepts c data _
  unfold verifyDkimSignatures
  rw [hfield, hsplit]
  dsimp only
  rw [List.filter_cons_of_pos (by rw [hread.name]; rfl), List.map_cons, List.head?_cons, hverdict,
    show (headerField raw).raw = raw from rfl, hparsed]
  dsimp only [Option.bind_some]
  rw [htags.d, htags.s]

end Key

/-! ## A signed message -/

def sampleSignature : List UInt8 := Base64.decode
  (of "gRIbCyLydPw50kS/vrIfjv7HDjK7hOL+74j2CaB60/CN2LZdd+8QCVTiVtZ6PvqcyUbtCPHyjYWmRiTu2UE9Ag==")

/-- The digests of the body and of the data of the message below, and the ed25519 signature over the latter. -/
def sampleKeys : Primitives Unit Unit where
  sha256 text :=
    if text = latin1 (of "hi\r\n") then
      #v[0x44, 0x72, 0x3d, 0xd4, 0xd0, 0xe0, 0xd4, 0x6a, 0x3c, 0x7f, 0xa8, 0xac, 0xa2, 0x54, 0xb6, 0x1c,
        0x27, 0xb6, 0xb5, 0x78, 0x9f, 0x96, 0x17, 0x7e, 0x82, 0xc8, 0x07, 0x00, 0x40, 0x9f, 0x15, 0x35]
    else
      #v[0x0e, 0xe9, 0xed, 0x60, 0xc8, 0x97, 0xd2, 0x3c, 0xb7, 0x1e, 0x4b, 0xeb, 0xec, 0x02, 0x15, 0x09,
        0x7f, 0x30, 0x13, 0x10, 0x1a, 0xd1, 0xbf, 0x2d, 0xf2, 0x90, 0xfe, 0xa6, 0xaf, 0xe0, 0xba, 0x44]
  createPrivateKey _ := some ()
  privateKeyType _ := .ed25519
  sign _ _ _ := sampleSignature
  createPublicKey _ _ := some ()
  asymmetricKeyType _ := .ed25519
  modulusLength _ := 0
  verify _ _ _ signature := signature == sampleSignature
  domainToASCII := id
  utf8 bytes := bytes.map UInt8.toUInt16
  toLowerCase := lowerAscii

def sampleDkim : DkimOptions where
  domainName := of "b.c"
  keySelector := of "s"
  privateKey := of "MC4CAQAwBQYDK2VwBCIEIJ1hsZ3v/VpguoRK9JLsLMREScVpezJpGXA7rAMcrn9g"

def sampleMessage : List UInt8 := latin1 (of "From: a@b.c\n\nhi\n")

def samplePublic : List UInt8 := Base64.decode (of "11qYAYKxCrfVS/7TyWQHOg7hcvPapiMlrwIaaPcHURo=")

/-- The record, as two strings. -/
def sampleResolve (name : CodeUnits) : Resolved :=
  if name = of "s._domainkey.b.c" then
    .records [[of "v=DKIM1; k=ed25519; ", of "p=11qYAYKxCrfVS/7TyWQHOg7hcvPapiMlrwIaaPcHURo="]]
  else .error (some (of "ENOTFOUND"))

def sampleSigned : List UInt8 := latin1 (joinLines 0x0d 0x0a
  [of "DKIM-Signature: v=1; a=ed25519-sha256; c=relaxed/relaxed; d=b.c; q=dns/txt;",
    of " s=s; bh=RHI91NDg1Go8f6isolS2HCe2tXiflhd+gsgHAECfFTU=; h=from:from:sender:",
    of " reply-to:subject:date:message-id:to:cc:mime-version:content-type:",
    of " content-transfer-encoding:in-reply-to:references:list-unsubscribe:",
    of " list-unsubscribe-post:feedback-id:content-disposition:auto-submitted; b=gRI",
    of " bCyLydPw50kS/vrIfjv7HDjK7hOL+74j2CaB60/CN2LZdd+8QCVTiVtZ6PvqcyUbtCPHyjYWmRi",
    of " Tu2UE9Ag==", of "From: a@b.c", [], of "hi", []])

theorem signed_passes_sample : (verifyDkimSignatures sampleKeys sampleResolve 0 sampleSigned).head? = some
    { result := .pass, signingDomain := some (of "b.c"), selector := some (of "s"), reason := none, testing := false } := by
  have hdomain : signingDomain sampleKeys sampleDkim = of "b.c" := by decide +kernel
  have hselector : signingSelector sampleKeys sampleDkim = of "s" := by decide +kernel
  have hfilled : sampleSignature ≠ [] := by decide +kernel
  have hpair : KeyPair sampleKeys () () := ⟨fun _ _ => hfilled, fun _ _ => beq_self_eq_true _⟩
  have hpublished : Published sampleKeys sampleResolve .ed25519Sha256 (signingDomain sampleKeys sampleDkim)
      (signingSelector sampleKeys sampleDkim) () := by
    rw [hdomain, hselector]
    exact ⟨⟨samplePublic, _, [], rfl, by decide +kernel, by decide +kernel, by decide +kernel⟩,
      fun h => absurd h (by decide)⟩
  have hsigned : dkimSignMessage sampleKeys sampleMessage sampleDkim = .ok sampleSigned := by decide +kernel
  have hpasses := signed_passes sampleKeys 0 (by decide +kernel) rfl rfl hpair hpublished hsigned
  rwa [hdomain, hselector] at hpasses

end BunMail.Emails.DkimSigner
