import BunMail.Bounces.ReturnPath

/-!
# What a return path binds

Minting and resolving agree: a minted return path, read back in any letter case, resolves to its
email and its recipient, and what resolves was minted for what it resolves to, as long as nobody
knows another MAC and no two MACs collide.
-/

namespace BunMail.Bounces

open Recipients EmailTokens Text

section Shapes

variable {toLowerCase : Text → Text} {hmac : Hmac}

/-- The local part of a return path is short ASCII text that stays as it is when lowercased. -/
theorem returnPathLocalPart_ascii {hex : Text} {subject : ReturnPathSubject}
    (hhex : isHex 24 hex = true) :
    ∀ c ∈ returnPathLocalPart toLowerCase hmac hex subject,
      c.toNat < 128 ∧ c.toLower = c ∧ c ≠ '@' := by
  have hhexOf : ∀ {n : ℕ} {s : Text}, isHex n s = true → ∀ c ∈ s,
      c.toNat < 128 ∧ c.toLower = c ∧ c ≠ '@' := by
    intro n s hs c hc
    obtain ⟨hn, hlower⟩ := ascii_of_isHex hs c hc
    refine ⟨hn, hlower, ?_⟩
    rintro rfl
    exact notMem_of_isHex hs (by decide) hc
  have hdigit : ∀ c ∈ decimal subject.index, c.toNat < 128 ∧ c.toLower = c ∧ c ≠ '@' := by
    intro c hc
    have hd := isDigit_of_mem_decimal hc
    have hn := isDigit_toNat hd
    refine ⟨by omega, toLower_of_isHexDigit (isHexDigit_of_isDigit hd), ?_⟩
    rintro rfl
    exact absurd hd (by decide)
  have hdot : '.'.toNat < 128 ∧ '.'.toLower = '.' ∧ '.' ≠ '@' := by decide
  intro c hc
  unfold returnPathLocalPart at hc
  rcases List.mem_append.mp hc with hc | hc
  · have hall : ∀ d ∈ ['b', '+'], d.toNat < 128 ∧ d.toLower = d ∧ d ≠ '@' := by
      simp
    exact hall c hc
  rcases List.mem_append.mp hc with hc | hc
  · exact hhexOf hhex c hc
  rcases List.mem_cons.mp hc with rfl | hc
  · exact hdot
  rcases List.mem_append.mp hc with hc | hc
  · exact hdigit c hc
  rcases List.mem_cons.mp hc with rfl | hc
  · exact hdot
  · exact hhexOf (isHex_toHex (n := MAC_BYTES) (by decide)) c hc

/-- A local part has at most 58 characters. -/
theorem utf16Length_returnPathLocalPart {hex : Text} {subject : ReturnPathSubject}
    (hhex : isHex 24 hex = true) (hindex : subject.index ≤ MAX_RECIPIENT_INDEX) :
    utf16Length (returnPathLocalPart toLowerCase hmac hex subject) ≤ 58 := by
  have hone : ∀ c ∈ returnPathLocalPart toLowerCase hmac hex subject, c.toNat < 0x10000 := by
    intro c hc
    have hascii := (returnPathLocalPart_ascii hhex c hc).1
    omega
  rw [utf16Length_eq_length hone]
  have hmac : (toHex (computeMac toLowerCase hmac subject)).length = 24 :=
    (isHex_iff.mp (isHex_toHex (n := MAC_BYTES) (by decide))).1
  have hdigits : (decimal subject.index).length ≤ 6 := by
    refine length_decimal_le (by decide) (lt_of_le_of_lt hindex ?_)
    decide
  have hlen : "b+".toList.length = 2 := rfl
  unfold returnPathLocalPart
  rw [List.length_append, List.length_append, List.length_cons, List.length_append, List.length_cons,
    hmac, (isHex_iff.mp hhex).1, hlen]
  omega

/-- What is minted. -/
theorem mintReturnPath_eq_some {subject : ReturnPathSubject} {senderDomain address : Text} :
    mintReturnPath toLowerCase hmac subject senderDomain = some address ↔
      ∃ hex, subject.emailId = "msg_" ++ hex ∧ isHex 24 hex = true ∧
        toLowerCase (trim senderDomain) ≠ [] ∧ subject.index ≤ MAX_RECIPIENT_INDEX ∧
        address = returnPathLocalPart toLowerCase hmac hex subject ++
          '@' :: toLowerCase (trim senderDomain) ∧
        utf16Length address ≤ MAX_ADDRESS_LENGTH := by
  unfold mintReturnPath
  dsimp only
  cases hid : EMAIL_ID_RE subject.emailId with
  | none =>
    refine iff_of_false (by simp) ?_
    rintro ⟨hex, hemail, hhex, _⟩
    rw [EMAIL_ID_RE_eq_some.mpr ⟨hemail, hhex⟩] at hid
    cases hid
  | some hex =>
    obtain ⟨hemail, hhex⟩ := EMAIL_ID_RE_eq_some.mp hid
    dsimp only
    constructor
    · intro h
      split_ifs at h with hdomain hindex hlocal hlen
      have haddress := Option.some.inj h
      subst haddress
      exact ⟨hex, hemail, hhex, hdomain, not_lt.mp hindex, rfl, hlen⟩
    · rintro ⟨hex', hemail', hhex', hdomain, hindex, rfl, hlen⟩
      have hsame : hex' = hex := List.append_cancel_left (hemail'.symm.trans hemail)
      subst hsame
      have hlocal := @utf16Length_returnPathLocalPart toLowerCase hmac _ _ hhex hindex
      rw [if_neg hdomain, if_neg (not_lt.mpr hindex), if_neg, if_pos hlen]
      unfold MAX_LOCAL_PART_LENGTH
      omega

/-- A return path in its fields. -/
theorem RETURN_PATH_RE_eq_some {s hex index mac domain : Text} :
    RETURN_PATH_RE s = some (hex, index, mac, domain) ↔
      s = ("b+" ++ (hex ++ '.' :: (index ++ '.' :: mac))) ++ '@' :: domain ∧
        isHex 24 hex = true ∧ isIndex index = true ∧ isHex 24 mac = true ∧ domain ≠ [] ∧
        '@' ∉ domain := by
  unfold RETURN_PATH_RE
  constructor
  · intro h
    split at h
    · rename_i localPart domain' hat
      obtain ⟨hs, _, hnoat⟩ := splitOn_eq_pair_iff.mp hat
      split_ifs at h with hhead
      obtain ⟨hdomain, htake⟩ := not_or.mp hhead
      split at h
      · rename_i hex' index' mac' hdots
        split_ifs at h with hshape
        obtain ⟨rfl, rfl, rfl, rfl⟩ : hex' = hex ∧ index' = index ∧ mac' = mac ∧ domain' = domain := by
          simpa using h
        obtain ⟨hdrop, _, _, _⟩ := splitOn_eq_triple_iff.mp hdots
        rw [Bool.and_eq_true, Bool.and_eq_true] at hshape
        obtain ⟨⟨hhex, hindex⟩, hmac⟩ := hshape
        refine ⟨?_, hhex, hindex, hmac, hdomain, hnoat⟩
        rw [hs, ← hdrop, ← not_not.mp htake, List.take_append_drop]
      · cases h
    · cases h
  · rintro ⟨rfl, hhex, hindex, hmac, hdomain, hnoat⟩
    have hdigits : ∀ c ∈ index, c.isDigit = true := by
      unfold isIndex isNumeral at hindex
      simp only [Bool.and_eq_true, List.all_eq_true] at hindex
      exact hindex.1.1.2
    have hnotIndex : ∀ {c : Char}, c.isDigit = false → c ∉ index := by
      intro c hc hmem
      rw [hdigits c hmem] at hc
      cases hc
    have hlocal : '@' ∉ "b+".toList ++ (hex ++ '.' :: (index ++ '.' :: mac)) := by
      intro hmem
      rcases List.mem_append.mp hmem with hmem | hmem
      · exact absurd hmem (by decide)
      rcases List.mem_append.mp hmem with hmem | hmem
      · exact notMem_of_isHex hhex (by decide) hmem
      rcases List.mem_cons.mp hmem with heq | hmem
      · exact absurd heq (by decide)
      rcases List.mem_append.mp hmem with hmem | hmem
      · exact hnotIndex (by decide) hmem
      rcases List.mem_cons.mp hmem with heq | hmem
      · exact absurd heq (by decide)
      · exact notMem_of_isHex hmac (by decide) hmem
    rw [splitOn_eq_pair_iff.mpr ⟨rfl, hlocal, hnoat⟩]
    dsimp only
    have htake : ("b+".toList ++ (hex ++ '.' :: (index ++ '.' :: mac))).take 2 = "b+".toList := rfl
    rw [if_neg (not_or.mpr ⟨hdomain, not_not.mpr htake⟩)]
    have hdrop : ("b+".toList ++ (hex ++ '.' :: (index ++ '.' :: mac))).drop 2 =
        hex ++ '.' :: (index ++ '.' :: mac) := rfl
    rw [hdrop, splitOn_eq_triple_iff.mpr ⟨rfl, notMem_of_isHex hhex (by decide), hnotIndex (by decide),
      notMem_of_isHex hmac (by decide)⟩]
    dsimp only
    rw [hhex, hindex, hmac]
    rfl

theorem isIndex_decimal {n : ℕ} (h : n ≤ MAX_RECIPIENT_INDEX) : isIndex (decimal n) = true := by
  unfold isIndex
  rw [isNumeral_decimal, Bool.true_and, decide_eq_true_eq]
  exact length_decimal_le (by decide) (lt_of_le_of_lt h (by decide))

/-- **The text the MAC is computed over names the email, the index and the recipient.** -/
theorem macInput_inj {s t : ReturnPathSubject} (hs : (EMAIL_ID_RE s.emailId).isSome)
    (ht : (EMAIL_ID_RE t.emailId).isSome) :
    macInput toLowerCase s = macInput toLowerCase t ↔ s.emailId = t.emailId ∧ s.index = t.index ∧
      toLowerCase (trim s.recipient) = toLowerCase (trim t.recipient) := by
  have hfields : ∀ u : ReturnPathSubject, macInput toLowerCase u = "verp:v1".toList ++
      ':' :: (u.emailId ++ ':' :: (decimal u.index ++ ':' :: toLowerCase (trim u.recipient))) := by
    intro u
    show "verp:v1".toList ++ ":".toList ++ (u.emailId ++ ":".toList ++
      (decimal u.index ++ ":".toList ++ toLowerCase (trim u.recipient))) = _
    simp only [List.append_assoc]
    rfl
  have hid : ∀ {u : ReturnPathSubject}, (EMAIL_ID_RE u.emailId).isSome → ':' ∉ u.emailId := by
    intro u hu
    obtain ⟨hex, hhex⟩ := Option.isSome_iff_exists.mp hu
    obtain ⟨hemail, hshape⟩ := EMAIL_ID_RE_eq_some.mp hhex
    rw [hemail, List.mem_append, not_or]
    exact ⟨by decide, notMem_of_isHex hshape (by decide)⟩
  have hdecimal : ∀ n : ℕ, ':' ∉ decimal n := fun n hm => absurd (isDigit_of_mem_decimal hm) (by decide)
  constructor
  · intro h
    rw [hfields, hfields] at h
    have h := (List.cons.inj (List.append_cancel_left h)).2
    obtain ⟨hemail, h⟩ := append_sep_inj (hid hs) (hid ht) h
    obtain ⟨hindex, hrecipient⟩ := append_sep_inj (hdecimal _) (hdecimal _) h
    exact ⟨hemail, decimal_injective hindex, hrecipient⟩
  · rintro ⟨hemail, hindex, hrecipient⟩
    rw [hfields, hfields, hemail, hindex, hrecipient]

/-! ## Sender domains -/

theorem at_notMem_lower (hlow : IsLowerCase toLowerCase) {s : Text} (h : '@' ∉ s) :
    '@' ∉ toLowerCase s := by
  have hfixed : ∀ c, isFixed c = false → decide (c ≠ '@') = true := by
    intro c hc
    refine decide_eq_true ?_
    rintro rfl
    exact absurd hc (by decide)
  have hs : (s.all fun c => decide (c ≠ '@')) = true := by
    rw [List.all_eq_true]
    intro c hc
    refine decide_eq_true ?_
    rintro rfl
    exact h hc
  rw [(hlow.lowers s).all_eq hfixed] at hs
  intro hmem
  exact of_decide_eq_true (List.all_eq_true.mp hs _ hmem) rfl

/-- The domain of a return path has no `@` and is trimmed. -/
theorem senderDomain_shape (hlow : IsLowerCase toLowerCase) (from_ : Text) :
    '@' ∉ toLowerCase (trim (afterLast '@' from_)) ∧
      trim (toLowerCase (trim (afterLast '@' from_))) = toLowerCase (trim (afterLast '@' from_)) := by
  refine ⟨at_notMem_lower hlow fun hmem => ?_, (hlow.lowers _).trim_eq_self.mp (trim_trim _)⟩
  have hafter : '@' ∈ from_.rtakeWhile (· ≠ '@') := mem_of_mem_trim hmem
  have hne := List.mem_rtakeWhile_imp hafter
  exact of_decide_eq_true hne rfl

/-- A return path has no white space at its ends. -/
theorem trim_returnPath {rest domain : Text} (hne : domain ≠ []) (htrim : trim domain = domain) :
    trim (("b+".toList ++ rest) ++ '@' :: domain) = ("b+".toList ++ rest) ++ '@' :: domain := by
  rw [trim_eq_self_iff]
  refine ⟨rfl, ?_⟩
  rw [List.reverse_append, List.reverse_cons, List.append_assoc, List.head?_append_of_ne_nil _ (by simpa)]
  exact (trim_eq_self_iff.mp htrim).2

end Shapes

section Binding

variable {τ : Type} {toLowerCase : Text → Text} {hmac : Hmac} {row : EmailRow τ}
  {recipient address : Text}

/-- The address minted for a recipient of an email. -/
theorem mints_iff : Mints toLowerCase hmac row recipient address ↔
    ∃ index : ℕ, (recipientOrder toLowerCase row.toAddress row.cc row.bcc)[index]? = some recipient ∧
      mintReturnPath toLowerCase hmac ⟨row.id, index, recipient⟩ (afterLast '@' row.fromAddress) =
        some address := by
  unfold Mints EmailRow.returnPaths Emails.returnPathsFor
  dsimp only
  simp only [Table.get?_eq_some_iff]
  rw [Table.ofEntries_rows]
  · simp only [List.mem_map, Prod.exists, List.mem_zipIdx_iff_getElem?, Prod.mk.injEq,
      Emails.RecipientReturnPath.mk.injEq]
    constructor
    · rintro ⟨index, r, i, hget, rfl, rfl, hmint⟩
      exact ⟨i, hget, hmint⟩
    · rintro ⟨index, hget, hmint⟩
      exact ⟨index, recipient, index, hget, rfl, rfl, hmint⟩
  · rw [List.map_map]
    show (List.map (fun e : Text × ℕ => e.1) _).Nodup
    rw [List.zipIdx_map_fst]
    exact nodup_recipientOrder

theorem index_of_returnPaths {path : Emails.RecipientReturnPath}
    (h : (row.returnPaths toLowerCase hmac).get? recipient = some path) :
    (recipientOrder toLowerCase row.toAddress row.cc row.bcc)[path.index]? = some recipient := by
  rw [Table.get?_eq_some_iff] at h
  obtain ⟨⟨r, i⟩, hmem, heq⟩ := List.mem_map.mp (Table.mem_ofEntries h)
  obtain ⟨rfl, rfl⟩ := Prod.mk.inj heq
  exact List.mem_zipIdx_iff_getElem?.mp hmem

variable {emails : Table (EmailRow.id (τ := τ))}

/-- **A minted return path resolves, in any letter case**, to its email and its recipient. -/
theorem resolve_of_mints (hlow : IsLowerCase toLowerCase) (hrow : row ∈ emails.rows)
    (h : Mints toLowerCase hmac row recipient address) {presented : Text}
    (hcase : toLowerCase presented = address) :
    resolveReturnPath toLowerCase hmac emails presented =
      some ⟨⟨row.id, row.apiKeyId, row.tags⟩, recipient⟩ := by
  obtain ⟨index, hget, hmint⟩ := mints_iff.mp h
  obtain ⟨hex, hid, hhex, hdomain, hindex, hshape, hlen⟩ := mintReturnPath_eq_some.mp hmint
  dsimp only at hid hindex
  obtain ⟨hnoat, htrim⟩ := senderDomain_shape hlow row.fromAddress
  have htrimmed : trim presented = presented := by
    rw [(hlow.lowers presented).trim_eq_self, hcase, hshape]
    exact trim_returnPath hdomain htrim
  have hfields : RETURN_PATH_RE address = some (hex, decimal index,
      toHex (computeMac toLowerCase hmac ⟨row.id, index, recipient⟩),
      toLowerCase (trim (afterLast '@' row.fromAddress))) := by
    rw [RETURN_PATH_RE_eq_some]
    exact ⟨hshape, hhex, isIndex_decimal hindex, isHex_toHex (n := MAC_BYTES) (by decide), hdomain,
      hnoat⟩
  have hparse : parseReturnPath toLowerCase presented = some ⟨row.id, index,
      computeMac toLowerCase hmac ⟨row.id, index, recipient⟩,
      toLowerCase (trim (afterLast '@' row.fromAddress))⟩ := by
    have hshort : ¬MAX_ADDRESS_LENGTH < utf16Length presented :=
      not_lt.mpr ((hlow.length presented).trans (hcase.symm ▸ hlen))
    unfold parseReturnPath
    rw [if_neg hshort, htrimmed, hcase, hfields]
    show some (ParsedReturnPath.mk _ _ _ _) = _
    rw [← hid, ofDecimal_decimal, fromHex_toHex]
  have hmatches : returnPathMacMatches toLowerCase hmac ⟨row.id, index, recipient⟩
      (computeMac toLowerCase hmac ⟨row.id, index, recipient⟩) = true := by
    unfold returnPathMacMatches
    simp only [decide_true, Bool.and_self]
  unfold resolveReturnPath
  rw [hparse, Option.bind_eq_bind, Option.bind_some, Table.find?_of_mem hrow, Option.bind_eq_bind,
    Option.bind_some]
  dsimp only
  rw [hget, Option.bind_eq_bind, Option.bind_some, hmatches]
  simp only [Bool.not_true, Bool.false_eq_true, ne_eq, not_true_eq_false, if_false]

/-- Equal return paths name the same email id and index. -/
theorem mints_inj {row' : EmailRow τ} {recipient' : Text}
    (h : Mints toLowerCase hmac row recipient address)
    (h' : Mints toLowerCase hmac row' recipient' address) :
    row.id = row'.id ∧ (row = row' → recipient = recipient') := by
  obtain ⟨index, hget, hmint⟩ := mints_iff.mp h
  obtain ⟨index', hget', hmint'⟩ := mints_iff.mp h'
  obtain ⟨hex, hid, hhex, _, _, hshape, _⟩ := mintReturnPath_eq_some.mp hmint
  obtain ⟨hex', hid', hhex', _, _, hshape', _⟩ := mintReturnPath_eq_some.mp hmint'
  dsimp only at hid hid'
  have hnoat : ∀ {hex : Text} {subject : ReturnPathSubject}, isHex 24 hex = true →
      '@' ∉ returnPathLocalPart toLowerCase hmac hex subject :=
    fun hx hm => (returnPathLocalPart_ascii hx _ hm).2.2 rfl
  obtain ⟨hlocal, _⟩ := append_sep_inj (hnoat hhex) (hnoat hhex') (hshape.symm.trans hshape')
  obtain ⟨hhexes, hrest⟩ := append_sep_inj (notMem_of_isHex hhex (by decide))
    (notMem_of_isHex hhex' (by decide)) (List.append_cancel_left hlocal)
  have hdots : ∀ n : ℕ, '.' ∉ decimal n := fun n hm => absurd (isDigit_of_mem_decimal hm) (by decide)
  obtain ⟨hindex, _⟩ := append_sep_inj (hdots _) (hdots _) hrest
  have hindexes : index = index' := decimal_injective hindex
  refine ⟨by rw [hid, hid', hhexes], ?_⟩
  rintro rfl
  rw [hindexes] at hget
  exact Option.some.inj (hget.symm.trans hget')

/-- What a resolved return path is made of. -/
theorem resolve_eq_some {presented : Text} {binding : ReturnPathBinding τ}
    (h : resolveReturnPath toLowerCase hmac emails presented = some binding) :
    ∃ row ∈ emails.rows, ∃ index hex, binding.email = ⟨row.id, row.apiKeyId, row.tags⟩ ∧
      row.id = "msg_" ++ hex ∧ isHex 24 hex = true ∧
      (recipientOrder toLowerCase row.toAddress row.cc row.bcc)[index]? = some binding.recipient ∧
      parseReturnPath toLowerCase presented = some ⟨row.id, index,
        computeMac toLowerCase hmac ⟨row.id, index, binding.recipient⟩,
        toLowerCase (trim (afterLast '@' row.fromAddress))⟩ ∧
      toLowerCase (trim presented) =
        returnPathLocalPart toLowerCase hmac hex ⟨row.id, index, binding.recipient⟩ ++
          '@' :: toLowerCase (trim (afterLast '@' row.fromAddress)) := by
  unfold resolveReturnPath at h
  simp only [Option.bind_eq_bind, Option.bind_eq_some_iff] at h
  obtain ⟨parsed, hparse, row, hfind, recipient, hget, hchecks⟩ := h
  split_ifs at hchecks with hmatches hdomain
  have hbinding := Option.some.inj hchecks
  subst hbinding
  rw [Bool.not_eq_true, Bool.not_eq_false'] at hmatches
  have hmac := of_decide_eq_true (Bool.and_eq_true_iff.mp hmatches).2
  rw [ne_eq, not_not] at hdomain
  have hrowId := Table.key_of_find? hfind
  have hparsed := hparse
  unfold parseReturnPath at hparsed
  split_ifs at hparsed
  obtain ⟨⟨hex, numeral, mac, domain⟩, hfields, hmk⟩ := Option.map_eq_some_iff.mp hparsed
  dsimp only at hmk
  subst hmk
  obtain ⟨hshape, hhex, hnumeral, hmacHex, _, _⟩ := RETURN_PATH_RE_eq_some.mp hfields
  dsimp only at hrowId hget hmac hdomain hparse
  refine ⟨row, Table.mem_of_find? hfind, ofDecimal numeral, hex, rfl, hrowId, hhex, hget, ?_, ?_⟩
  · rw [hparse, hrowId, hdomain, ← hmac, hrowId]
  · have hdecimal : decimal (ofDecimal numeral) = numeral :=
      decimal_ofDecimal (Bool.and_eq_true_iff.mp hnumeral).1
    have hmacText : toHex (fromHex mac) = mac :=
      toHex_fromHex (n := 12) (isHex_iff.mp hmacHex).1 (isHex_iff.mp hmacHex).2
    rw [hshape, hdomain]
    unfold returnPathLocalPart
    rw [hmac, hmacText, hdecimal]

/-! ## Minted subjects -/

variable (toLowerCase hmac) (sent : Table (EmailRow.id (τ := τ)))

/-- The subjects return paths were minted for. -/
def MintedSubjects : Set ReturnPathSubject :=
  { s | ∃ row ∈ sent.rows, row.id = s.emailId ∧ ∃ address,
    (row.returnPaths toLowerCase hmac).get? s.recipient = some ⟨s.index, some address⟩ }

/-- The recipients of the emails, in their places. -/
def Subjects : Set ReturnPathSubject :=
  { s | (EMAIL_ID_RE s.emailId).isSome ∧ ∃ row ∈ sent.rows, row.id = s.emailId ∧
    (recipientOrder toLowerCase row.toAddress row.cc row.bcc)[s.index]? = some s.recipient }

/-- The MAC a presented address carries, if any, is that of a minted subject. -/
def CarriesKnownMac (presented : Text) : Prop :=
  ∀ parsed, parseReturnPath toLowerCase presented = some parsed →
    ∃ s ∈ MintedSubjects toLowerCase hmac sent, computeMac toLowerCase hmac s = parsed.mac

/-- What return paths bind: `sent` are the emails ever sent, `emails` those still stored. -/
structure BindsReturnPaths (emails : Table (EmailRow.id (τ := τ))) : Prop where
  /-- A minted address is lowercase, and in any letter case it resolves to its email and its
  recipient, which is a lowercased address of the email. -/
  resolves : ∀ row ∈ emails.rows, ∀ recipient address, Mints toLowerCase hmac row recipient address →
    recipient ∈ recipientOrder toLowerCase row.toAddress row.cc row.bcc ∧
    toLowerCase recipient = recipient ∧ toLowerCase address = address ∧
    ∀ presented, toLowerCase presented = address →
      resolveReturnPath toLowerCase hmac emails presented =
        some ⟨⟨row.id, row.apiKeyId, row.tags⟩, recipient⟩
  /-- Another email or another recipient has another address. -/
  distinct : ∀ row ∈ sent.rows, ∀ row' ∈ sent.rows, ∀ recipient recipient' address,
    Mints toLowerCase hmac row recipient address → Mints toLowerCase hmac row' recipient' address →
    row = row' ∧ recipient = recipient'
  /-- The text the MAC is computed over names the email, the index and the recipient. -/
  injective : ∀ s t : ReturnPathSubject, (EMAIL_ID_RE s.emailId).isSome →
    (EMAIL_ID_RE t.emailId).isSome → (macInput toLowerCase s = macInput toLowerCase t ↔
      s.emailId = t.emailId ∧ s.index = t.index ∧
        toLowerCase (trim s.recipient) = toLowerCase (trim t.recipient))
  /-- What resolves was minted for what it resolves to. -/
  unforged : Set.InjOn (truncated hmac MAC_BYTES) (macInput toLowerCase '' Subjects toLowerCase sent) →
    ∀ presented, CarriesKnownMac toLowerCase hmac sent presented →
    ∀ binding, resolveReturnPath toLowerCase hmac emails presented = some binding →
      ∃ row ∈ emails.rows, binding.email = ⟨row.id, row.apiKeyId, row.tags⟩ ∧
        Mints toLowerCase hmac row binding.recipient (toLowerCase (trim presented))
  /-- Local parts and addresses are short. -/
  short : ∀ row : EmailRow τ, ∀ recipient address, Mints toLowerCase hmac row recipient address →
    ∃ localPart domain, address = localPart ++ '@' :: domain ∧
      utf16Length localPart ≤ MAX_LOCAL_PART_LENGTH ∧ utf16Length address ≤ MAX_ADDRESS_LENGTH

variable {toLowerCase hmac sent}

theorem lower_minted (hlow : IsLowerCase toLowerCase)
    (h : Mints toLowerCase hmac row recipient address) : toLowerCase address = address := by
  obtain ⟨index, _, hmint⟩ := mints_iff.mp h
  obtain ⟨hex, _, hhex, _, _, rfl, _⟩ := mintReturnPath_eq_some.mp hmint
  rw [hlow.around_at, hlow.idempotent, lower_of_ascii hlow fun c hc =>
    ⟨(returnPathLocalPart_ascii hhex c hc).1, (returnPathLocalPart_ascii hhex c hc).2.1⟩]

/-- With no other MAC known and no collision, what resolves was minted for what it resolves to. -/
theorem minted_of_resolve (hlow : IsLowerCase toLowerCase)
    (hsent : ∀ row ∈ emails.rows, row ∈ sent.rows)
    (hcollision : Set.InjOn (truncated hmac MAC_BYTES)
      (macInput toLowerCase '' Subjects toLowerCase sent))
    {presented : Text} (hknown : CarriesKnownMac toLowerCase hmac sent presented)
    {binding : ReturnPathBinding τ}
    (h : resolveReturnPath toLowerCase hmac emails presented = some binding) :
    ∃ row ∈ emails.rows, binding.email = ⟨row.id, row.apiKeyId, row.tags⟩ ∧
      Mints toLowerCase hmac row binding.recipient (toLowerCase (trim presented)) := by
  obtain ⟨row, hrow, index, hex, hemail, hid, hhex, hget, hparse, hshape⟩ := resolve_eq_some h
  refine ⟨row, hrow, hemail, ?_⟩
  -- recipients of emails are trimmed and lowercase, so subjects are told apart
  have hinput : Set.InjOn (macInput toLowerCase) (Subjects toLowerCase sent) := by
    rintro s ⟨hsId, srow, _, _, hs⟩ t ⟨htId, trow, _, _, ht⟩ heq
    obtain ⟨hemails, hindexes, hrecipients⟩ := (macInput_inj hsId htId).mp heq
    obtain ⟨hsTrim, hsLower⟩ := recipient_normal hlow (List.mem_of_getElem? hs)
    obtain ⟨htTrim, htLower⟩ := recipient_normal hlow (List.mem_of_getElem? ht)
    rw [hsTrim, hsLower, htTrim, htLower] at hrecipients
    cases s
    cases t
    simp_all only
  have hminted : MintedSubjects toLowerCase hmac sent ⊆ Subjects toLowerCase sent := by
    rintro s ⟨srow, hsrow, hsid, sent_address, hpaths⟩
    obtain ⟨i, hi, hmint⟩ := mints_iff.mp ⟨s.index, hpaths⟩
    obtain ⟨shex, hshex, hshexShape, _⟩ := mintReturnPath_eq_some.mp hmint
    have hat := index_of_returnPaths hpaths
    refine ⟨?_, srow, hsrow, hsid, hat⟩
    rw [← hsid, EMAIL_ID_RE_eq_some.mpr ⟨hshex, hshexShape⟩]
    rfl
  have hsubject : (⟨row.id, index, binding.recipient⟩ : ReturnPathSubject) ∈
      Subjects toLowerCase sent := by
    refine ⟨?_, row, hsent row hrow, rfl, hget⟩
    show (EMAIL_ID_RE row.id).isSome
    rw [EMAIL_ID_RE_eq_some.mpr ⟨hid, hhex⟩]
    rfl
  obtain ⟨row', hrow', hsame, address, hpaths⟩ := mem_of_verified hinput hcollision hminted hsubject
    (hknown _ hparse) rfl
  have hrows : row' = row := Table.eq_of_key_eq hrow' (hsent row hrow) hsame
  subst hrows
  have hmints : Mints toLowerCase hmac row' binding.recipient address := ⟨index, hpaths⟩
  obtain ⟨i, hi, hmint⟩ := mints_iff.mp hmints
  have hindex : i = index := by
    have hat := index_of_returnPaths hpaths
    exact (List.getElem?_inj (List.getElem?_eq_some_iff.mp hi).1 nodup_recipientOrder).mp
      (hi.trans hat.symm)
  subst hindex
  obtain ⟨hex', hid', _, _, _, haddress, _⟩ := mintReturnPath_eq_some.mp hmint
  have hhexes : hex' = hex := List.append_cancel_left (hid'.symm.trans hid)
  rw [hshape, ← hhexes, ← haddress]
  exact hmints

/-- **A signed return path names exactly one email and one recipient.** -/
theorem bindsReturnPaths (hlow : IsLowerCase toLowerCase)
    (hsent : ∀ row ∈ emails.rows, row ∈ sent.rows) :
    BindsReturnPaths toLowerCase hmac sent emails where
  resolves row hrow recipient address h := by
    obtain ⟨index, hget, _⟩ := mints_iff.mp h
    have hmem := List.mem_of_getElem? hget
    exact ⟨hmem, (recipient_normal hlow hmem).2, lower_minted hlow h,
      fun presented hcase => resolve_of_mints hlow hrow h hcase⟩
  distinct row hrow row' hrow' recipient recipient' address h h' := by
    obtain ⟨hid, hrecipient⟩ := mints_inj h h'
    have hrows : row = row' := Table.eq_of_key_eq hrow hrow' hid
    exact ⟨hrows, hrecipient hrows⟩
  injective s t hs ht := macInput_inj hs ht
  unforged hcollision presented hknown binding h :=
    minted_of_resolve hlow hsent hcollision hknown h
  short row recipient address h := by
    obtain ⟨index, _, hmint⟩ := mints_iff.mp h
    obtain ⟨hex, _, hhex, _, hindex, hshape, hlen⟩ := mintReturnPath_eq_some.mp hmint
    refine ⟨_, _, hshape, ?_, hlen⟩
    exact (utf16Length_returnPathLocalPart hhex hindex).trans (by decide)

end Binding

/-! ## An email to two recipients -/

/-- From `Me@X.org` to `A@y.org`, with `b@z.org` as blind recipient. -/
def twoRecipients : EmailRow Unit where
  id := "msg_0123456789abcdef01234567"
  apiKeyId := "key_1"
  fromAddress := "Me@X.org"
  toAddress := "A@y.org"
  cc := none
  bcc := some "b@z.org"
  tags := none

/-- The table with this email. -/
def oneEmail : Table (EmailRow.id (τ := Unit)) := ⟨[twoRecipients], by decide +kernel⟩

/-- The HMAC-SHA256 of its two subjects, under the key derived from 32 zero bytes. -/
def zeroKeyHmac : Hmac := fun input =>
  if input = "verp:v1:msg_0123456789abcdef01234567:0:a@y.org" then
    #v[61, 38, 181, 209, 81, 178, 52, 162, 110, 166, 102, 86, 28, 58, 23, 15, 74, 149, 81, 200, 80,
      109, 26, 220, 217, 164, 11, 222, 211, 158, 171, 200]
  else if input = "verp:v1:msg_0123456789abcdef01234567:1:b@z.org" then
    #v[103, 227, 151, 237, 222, 197, 250, 196, 130, 92, 190, 75, 200, 30, 197, 28, 92, 14, 74, 58, 132,
      88, 159, 142, 241, 192, 70, 118, 28, 79, 71, 188]
  else Vector.replicate 32 0

/-- Its return paths bind, no two MACs collide, and the path of the blind recipient, shouted, resolves
to it. -/
theorem bindsReturnPaths_twoRecipients :
    BindsReturnPaths asciiLower zeroKeyHmac oneEmail oneEmail ∧
      Set.InjOn (truncated zeroKeyHmac MAC_BYTES)
        (macInput asciiLower '' Subjects asciiLower oneEmail) ∧
      CarriesKnownMac asciiLower zeroKeyHmac oneEmail
        "B+0123456789ABCDEF01234567.1.67E397EDDEC5FAC4825CBE4B@X.ORG" ∧
      resolveReturnPath asciiLower zeroKeyHmac oneEmail
        "B+0123456789ABCDEF01234567.1.67E397EDDEC5FAC4825CBE4B@X.ORG" =
          some ⟨⟨"msg_0123456789abcdef01234567", "key_1", none⟩, "b@z.org"⟩ := by
  refine ⟨bindsReturnPaths isLowerCase_asciiLower fun _ h => h, ?_, ?_, by decide +kernel⟩
  · have hsubjects : macInput asciiLower '' Subjects asciiLower oneEmail ⊆
        {"verp:v1:msg_0123456789abcdef01234567:0:a@y.org".toList,
          "verp:v1:msg_0123456789abcdef01234567:1:b@z.org".toList} := by
      rintro input ⟨⟨emailId, index, recipient⟩, ⟨_, row, hrow, hid, hget⟩, rfl⟩
      obtain rfl : row = twoRecipients := List.mem_singleton.mp hrow
      have horder : recipientOrder asciiLower twoRecipients.toAddress twoRecipients.cc
          twoRecipients.bcc = ["a@y.org".toList, "b@z.org".toList] := by decide +kernel
      rw [horder] at hget
      dsimp only at hid hget
      subst hid
      rcases index with _ | _ | index
      · left
        rw [← Option.some.inj hget]
        decide +kernel
      · right
        rw [← Option.some.inj hget]
        decide +kernel
      · cases hget
    refine Set.InjOn.mono hsubjects ?_
    rintro a (rfl | rfl) b (rfl | rfl) heq
    · rfl
    · exact absurd heq (by decide +kernel)
    · exact absurd heq (by decide +kernel)
    · rfl
  · intro parsed hparsed
    refine ⟨⟨"msg_0123456789abcdef01234567", 1, "b@z.org"⟩, ⟨twoRecipients, List.mem_singleton_self _,
      rfl, "b+0123456789abcdef01234567.1.67e397eddec5fac4825cbe4b@x.org", by decide +kernel⟩, ?_⟩
    have hp : parseReturnPath asciiLower
        "B+0123456789ABCDEF01234567.1.67E397EDDEC5FAC4825CBE4B@X.ORG" = some
          ⟨"msg_0123456789abcdef01234567", 1, [103, 227, 151, 237, 222, 197, 250, 196, 130, 92, 190, 75],
            "x.org"⟩ := by decide +kernel
    rw [hp] at hparsed
    rw [← Option.some.inj hparsed]
    decide +kernel

end BunMail.Bounces
