import BunMail.Emails.ListUnsubscribe

/-!
# Unsubscribe links

For a sender whose domain is not blank, the header of an email carries a link exactly when nothing
blocks it, and the token in it names the only address the email goes to.  For a sender whose domain is
blank, nothing blocks the link and the header goes without.
-/

namespace BunMail.Unsubscribe

open Recipients EmailTokens Text

section Token

variable {τ : Type} {toLowerCase : Text → Text} {hmac : Hmac} {row : EmailRow τ} {token : Text}

/-! ## The only recipient -/

/-- **The only recipient is all the recipients** of an email. -/
theorem soleRecipient_eq_some {to_ recipient : Text} {cc bcc : Option Text} :
    soleRecipient toLowerCase to_ cc bcc = some recipient ↔
      trim (cc.getD []) = [] ∧ trim (bcc.getD []) = [] ∧
        recipientOrder toLowerCase to_ cc bcc = [recipient] := by
  unfold soleRecipient
  by_cases hblank : trim (cc.getD []) ≠ [] ∨ trim (bcc.getD []) ≠ []
  · rw [if_pos hblank]
    refine iff_of_false (by simp) ?_
    rintro ⟨hcc, hbcc, _⟩
    exact hblank.elim (fun h => h hcc) fun h => h hbcc
  · rw [if_neg hblank]
    obtain ⟨hcc, hbcc⟩ := not_or.mp hblank
    rw [ne_eq, not_not] at hcc hbcc
    have hsame : parseRecipients toLowerCase to_ none none = parseRecipients toLowerCase to_ cc bcc := by
      unfold parseRecipients byLowerOf
      rw [ingest_blank hcc, ingest_blank hbcc]
      rfl
    rw [hsame]
    unfold recipientOrder
    rcases parseRecipients toLowerCase to_ cc bcc with _ | ⟨r, _ | ⟨r', rest⟩⟩
    · simp
    · simp [hcc, hbcc]
    · simp

theorem recipientOrder_of_sole {to_ recipient : Text} {cc bcc : Option Text}
    (h : soleRecipient toLowerCase to_ cc bcc = some recipient) :
    recipientOrder toLowerCase to_ cc bcc = [recipient] := (soleRecipient_eq_some.mp h).2.2

/-- No recipient, or several, is no only recipient. -/
theorem soleRecipient_eq_none {to_ : Text} {cc bcc : Option Text}
    (h : (recipientOrder toLowerCase to_ cc bcc).length ≠ 1) :
    soleRecipient toLowerCase to_ cc bcc = none := by
  rw [Option.eq_none_iff_forall_ne_some]
  intro recipient hsome
  rw [recipientOrder_of_sole hsome] at h
  exact h rfl

/-! ## Tokens -/

/-- The token of a subject. -/
theorem mintUnsubscribeToken_eq_some {subject : UnsubscribeTokenSubject} :
    mintUnsubscribeToken toLowerCase hmac subject = some token ↔
      ∃ hex, subject.emailId = "msg_" ++ hex ∧ isHex 24 hex = true ∧
        token = hex ++ '.' :: toHex (computeMac toLowerCase hmac subject) := by
  unfold mintUnsubscribeToken
  rw [Option.map_eq_some_iff]
  simp only [EMAIL_ID_RE_eq_some, and_assoc]
  refine exists_congr fun hex => and_congr_right fun _ => and_congr_right fun _ => ?_
  exact eq_comm

theorem isHex_mac {subject : UnsubscribeTokenSubject} :
    isHex 32 (toHex (computeMac toLowerCase hmac subject)) = true :=
  isHex_toHex (n := MAC_BYTES) (by decide)

/-- What a presented text is read as. -/
theorem parseUnsubscribeToken_eq_some {parsed : ParsedToken} :
    parseUnsubscribeToken toLowerCase token = some parsed ↔
      utf16Length token = UNSUBSCRIBE_TOKEN_LENGTH ∧ ∃ hex mac, isHex 24 hex = true ∧
        isHex 32 mac = true ∧ toLowerCase token = hex ++ '.' :: mac ∧
        parsed = ⟨"msg_" ++ hex, fromHex mac⟩ := by
  unfold parseUnsubscribeToken
  constructor
  · intro h
    split_ifs at h with hlen
    refine ⟨not_not.mp hlen, ?_⟩
    split at h
    · rename_i hex mac hsplit
      split_ifs at h with hshape
      obtain ⟨hhex, hmac⟩ := Bool.and_eq_true_iff.mp hshape
      exact ⟨hex, mac, hhex, hmac, (splitOn_eq_pair_iff.mp hsplit).1, (Option.some.inj h).symm⟩
    · cases h
  · rintro ⟨hlen, hex, mac, hhex, hmac, hshape, rfl⟩
    rw [if_neg (not_not.mpr hlen), splitOn_eq_pair_iff.mpr
      ⟨hshape, notMem_of_isHex hhex (by decide), notMem_of_isHex hmac (by decide)⟩]
    dsimp only
    rw [hhex, hmac]
    rfl

/-- Text that spells ASCII in another case is ASCII. -/
theorem ascii_of_asciiLower {s t : Text} (h : asciiLower s = t) (ht : ∀ c ∈ t, c.toNat < 128) :
    ∀ c ∈ s, c.toNat < 128 := by
  intro c hc
  by_contra hlarge
  have halpha : c.isAlpha = false := by
    rw [← Bool.not_eq_true]
    intro ha
    have := isAlpha_toNat ha
    omega
  have hmem : c.toLower ∈ t := h ▸ List.mem_map_of_mem hc
  rw [toLower_of_not_isAlpha halpha] at hmem
  exact hlarge (ht c hmem)

theorem ascii_token {hex mac : Text} (hhex : isHex 24 hex = true) (hmac : isHex 32 mac = true) :
    ∀ c ∈ hex ++ '.' :: mac, c.toNat < 128 ∧ c ≠ '@' := by
  intro c hc
  have hof : ∀ {n : ℕ} {s : Text}, isHex n s = true → c ∈ s → c.toNat < 128 ∧ c ≠ '@' := by
    intro n s hs hmem
    refine ⟨(ascii_of_isHex hs c hmem).1, ?_⟩
    rintro rfl
    exact notMem_of_isHex hs (by decide) hmem
  rcases List.mem_append.mp hc with hc | hc
  · exact hof hhex hc
  rcases List.mem_cons.mp hc with rfl | hc
  · decide
  · exact hof hmac hc

/-- A token in any letter case is read as its parts. -/
theorem parse_of_asciiLower (hlow : IsLowerCase toLowerCase) {hex mac presented : Text}
    (hhex : isHex 24 hex = true) (hmac : isHex 32 mac = true)
    (h : asciiLower presented = hex ++ '.' :: mac) :
    parseUnsubscribeToken toLowerCase presented = some ⟨"msg_" ++ hex, fromHex mac⟩ := by
  have hascii := ascii_of_asciiLower h fun c hc => (ascii_token hhex hmac c hc).1
  rw [parseUnsubscribeToken_eq_some]
  refine ⟨?_, hex, mac, hhex, hmac, ?_, rfl⟩
  · have hone : ∀ c ∈ presented, c.toNat < 0x10000 := by
      intro c hc
      have := hascii c hc
      omega
    have hlen : presented.length = (asciiLower presented).length := by
      unfold asciiLower
      rw [List.length_map]
    rw [utf16Length_eq_length hone, hlen, h, List.length_append, List.length_cons,
      (isHex_iff.mp hhex).1, (isHex_iff.mp hmac).1]
    rfl
  · rw [(hlow.lowers presented).eq_map_toLower hascii]
    exact h

/-- The text the MAC is computed over names the email and the recipient. -/
theorem macInput_inj {s t : UnsubscribeTokenSubject} (hs : (EMAIL_ID_RE s.emailId).isSome)
    (ht : (EMAIL_ID_RE t.emailId).isSome) (h : macInput toLowerCase s = macInput toLowerCase t) :
    s.emailId = t.emailId ∧ toLowerCase (trim s.recipient) = toLowerCase (trim t.recipient) := by
  have hfields : ∀ u : UnsubscribeTokenSubject, macInput toLowerCase u =
      "unsubscribe:v1:".toList ++ (u.emailId ++ ':' :: toLowerCase (trim u.recipient)) := by
    intro u
    show "unsubscribe:v1".toList ++ ":".toList ++ (u.emailId ++ ":".toList ++
      toLowerCase (trim u.recipient)) = _
    simp only [List.append_assoc]
    rfl
  have hid : ∀ {u : UnsubscribeTokenSubject}, (EMAIL_ID_RE u.emailId).isSome → ':' ∉ u.emailId := by
    intro u hu
    obtain ⟨hex, hhex⟩ := Option.isSome_iff_exists.mp hu
    obtain ⟨hemail, hshape⟩ := EMAIL_ID_RE_eq_some.mp hhex
    rw [hemail, List.mem_append, not_or]
    exact ⟨by decide, notMem_of_isHex hshape (by decide)⟩
  rw [hfields, hfields] at h
  exact append_sep_inj (hid hs) (hid ht) (List.append_cancel_left h)

/-! ## Resolving -/

variable {emails sent : Table (EmailRow.id (τ := τ))}

/-- **A token of an email resolves, in any letter case.** -/
theorem resolve_of_token (hlow : IsLowerCase toLowerCase) (hrow : row ∈ emails.rows)
    {recipient senderDomain : Text}
    (hsole : soleRecipient toLowerCase row.toAddress row.cc row.bcc = some recipient)
    (hmint : mintUnsubscribeToken toLowerCase hmac ⟨row.id, recipient⟩ = some token)
    (hdomain : domainAfterAt toLowerCase row.fromAddress = some senderDomain) {presented : Text}
    (hcase : asciiLower presented = token) :
    resolveUnsubscribeToken toLowerCase hmac emails presented =
      some ⟨row.id, row.apiKeyId, recipient, senderDomain, row.tags⟩ := by
  obtain ⟨hex, hid, hhex, rfl⟩ := mintUnsubscribeToken_eq_some.mp hmint
  dsimp only at hid
  have hparse := parse_of_asciiLower hlow hhex isHex_mac hcase
  rw [← hid, fromHex_toHex] at hparse
  have hmatches : unsubscribeMacMatches toLowerCase hmac ⟨row.id, recipient⟩
      (computeMac toLowerCase hmac ⟨row.id, recipient⟩) = true := by
    unfold unsubscribeMacMatches
    simp only [decide_true, Bool.and_self]
  unfold resolveUnsubscribeToken
  rw [hparse, Option.bind_eq_bind, Option.bind_some, Table.find?_of_mem hrow, Option.bind_eq_bind,
    Option.bind_some, hsole, Option.bind_eq_bind, Option.bind_some, hmatches, hdomain]
  rfl

/-- What resolves is the token of an email, in some letter case. -/
theorem token_of_resolve {presented : Text} {target : UnsubscribeTarget τ}
    (h : resolveUnsubscribeToken toLowerCase hmac emails presented = some target) :
    ∃ row ∈ emails.rows, target.emailId = row.id ∧
      soleRecipient toLowerCase row.toAddress row.cc row.bcc = some target.recipient ∧
      mintUnsubscribeToken toLowerCase hmac ⟨target.emailId, target.recipient⟩ =
        some (toLowerCase presented) ∧
      parseUnsubscribeToken toLowerCase presented = some ⟨target.emailId,
        computeMac toLowerCase hmac ⟨target.emailId, target.recipient⟩⟩ := by
  unfold resolveUnsubscribeToken at h
  simp only [Option.bind_eq_bind, Option.bind_eq_some_iff] at h
  obtain ⟨parsed, hparse, row, hfind, recipient, hsole, hchecks⟩ := h
  split_ifs at hchecks with hmatches
  obtain ⟨senderDomain, _, htarget⟩ := Option.bind_eq_some_iff.mp hchecks
  rw [← Option.some.inj htarget]
  rw [Bool.not_eq_true, Bool.not_eq_false'] at hmatches
  have hmac := of_decide_eq_true (Bool.and_eq_true_iff.mp hmatches).2
  have hid := Table.key_of_find? hfind
  obtain ⟨_, hex, mac, hhex, hmacHex, hshape, rfl⟩ := parseUnsubscribeToken_eq_some.mp hparse
  dsimp only at hmac hid ⊢
  refine ⟨row, Table.mem_of_find? hfind, hid.symm, hsole, ?_, ?_⟩
  · refine mintUnsubscribeToken_eq_some.mpr ⟨hex, rfl, hhex, ?_⟩
    rw [hshape, hmac, toHex_fromHex (n := 16) (isHex_iff.mp hmacHex).1 (isHex_iff.mp hmacHex).2]
  · rw [hparse, hmac]

/-! ## Sender domains -/

theorem secondField {localPart domain : Text} (hl : '@' ∉ localPart) (hd : '@' ∉ domain) :
    (localPart ++ '@' :: domain).splitOn '@' = [localPart, domain] :=
  splitOn_eq_pair_iff.mpr ⟨rfl, hl, hd⟩

/-- The domain of an address is missing when it is blank. -/
theorem domainAfterAt_at (hlow : IsLowerCase toLowerCase) {localPart domain : Text}
    (hl : '@' ∉ localPart) (hd : '@' ∉ domain) :
    domainAfterAt toLowerCase (localPart ++ '@' :: domain) =
      if trim domain = [] then none else some (toLowerCase (trim domain)) := by
  unfold domainAfterAt
  rw [secondField hl hd]
  show (some (toLowerCase (trim domain))).filter (· ≠ []) = _
  have hnil := (hlow.lowers (trim domain)).eq_nil_iff
  by_cases hblank : trim domain = []
  · rw [if_pos hblank, Option.filter_some, if_neg (by simp [hnil.mp hblank])]
  · rw [if_neg hblank, Option.filter_some, if_pos (decide_eq_true (hnil.not.mp hblank))]

/-- **The `unsub+` address of an email, in any letter case**, carries the token and resolves. -/
theorem resolve_of_address (hlow : IsLowerCase toLowerCase) (hrow : row ∈ emails.rows)
    {recipient senderDomain : Text}
    (hsole : soleRecipient toLowerCase row.toAddress row.cc row.bcc = some recipient)
    (hmint : mintUnsubscribeToken toLowerCase hmac ⟨row.id, recipient⟩ = some token)
    (hdomain : domainAfterAt toLowerCase row.fromAddress = some senderDomain)
    {localPart domain : Text} (hlocal : asciiLower localPart = unsubscribeLocalPart token)
    (hd : '@' ∉ domain) (hat : toLowerCase (trim domain) = senderDomain) :
    ∃ presented, tokenFromUnsubscribeAddress (localPart ++ '@' :: domain) = some presented ∧
      resolveUnsubscribeRecipient toLowerCase hmac emails presented (localPart ++ '@' :: domain) =
        some ⟨row.id, row.apiKeyId, recipient, senderDomain, row.tags⟩ := by
  obtain ⟨hex, _, hhex, htoken⟩ := mintUnsubscribeToken_eq_some.mp hmint
  have hnoat : '@' ∉ localPart := by
    intro hmem
    have hlower : '@' ∈ asciiLower localPart := List.mem_map.mpr ⟨'@', hmem, by decide⟩
    rw [hlocal, htoken] at hlower
    rcases List.mem_append.mp hlower with h | h
    · exact absurd h (by decide)
    · exact (ascii_token hhex isHex_mac _ h).2 rfl
  have htake : asciiLower (localPart.take 6) = UNSUBSCRIBE_LOCAL_PREFIX := by
    have h := congrArg (List.take 6) hlocal
    unfold asciiLower at h ⊢
    rw [List.map_take, h]
    rfl
  have hdrop : asciiLower (localPart.drop 6) = token := by
    have h := congrArg (List.drop 6) hlocal
    unfold asciiLower at h ⊢
    rw [List.map_drop, h]
    rfl
  have hne : localPart.drop 6 ≠ [] := by
    intro hnil
    rw [hnil, htoken] at hdrop
    exact List.append_ne_nil_of_right_ne_nil hex (List.cons_ne_nil _ _) hdrop.symm
  refine ⟨localPart.drop 6, ?_, ?_⟩
  · unfold tokenFromUnsubscribeAddress
    rw [secondField hnoat hd]
    exact if_pos ⟨htake, hne⟩
  · unfold resolveUnsubscribeRecipient
    rw [resolve_of_token hlow hrow hsole hmint hdomain hdrop, Option.filter_some, if_pos]
    refine decide_eq_true ?_
    rw [secondField hnoat hd, ← hat]
    rfl

end Token

section Links

variable {τ : Type} (toLowerCase : Text → Text) (hmac : Hmac) (parseUrl : Text → Option Url)

/-- Options with the per-recipient link and `unsub+` address of an email. -/
def CarriesLink (row : EmailRow τ) (domain : Option ListUnsubscribeDomain)
    (settings : ListUnsubscribeSettings) (options : Option UnsubscribeOptions) : Prop :=
  ∃ base token senderDomain, oneClickBaseUrl parseUrl settings.appBaseUrl = some base ∧
    TokenOf toLowerCase hmac row token ∧
    domainAfterAt toLowerCase row.fromAddress = some senderDomain ∧
    options = some (oneClickOptions base token senderDomain domain settings)

/-- The subjects tokens can be made for. -/
def Subjects (sent : Table (EmailRow.id (τ := τ))) : Set UnsubscribeTokenSubject :=
  { s | (EMAIL_ID_RE s.emailId).isSome ∧ ∃ row ∈ sent.rows, row.id = s.emailId ∧
    soleRecipient toLowerCase row.toAddress row.cc row.bcc = some s.recipient }

/-- What the unsubscribe link of an email does: `sent` are the emails ever sent, `emails` those still
stored. -/
structure UnsubscribeLinks (sent emails : Table (EmailRow.id (τ := τ))) (row : EmailRow τ) : Prop where
  /-- The link is there when nothing blocks it. -/
  carried : ∀ domain settings,
    oneClickBlocker toLowerCase parseUrl row.toAddress row.cc row.bcc settings.appBaseUrl = none →
    CarriesLink toLowerCase hmac parseUrl row domain settings
      (listUnsubscribeOptions toLowerCase hmac parseUrl row domain settings)
  /-- The static options are there when something does. -/
  blocked : ∀ domain settings,
    oneClickBlocker toLowerCase parseUrl row.toAddress row.cc row.bcc settings.appBaseUrl ≠ none →
    listUnsubscribeOptions toLowerCase hmac parseUrl row domain settings = staticOptions domain
  /-- Marketing email that is accepted carries the link on every attempt. -/
  marketing : ∀ domain settings, marketingBlocker toLowerCase parseUrl (some .marketing) row.toAddress
      row.cc row.bcc settings.appBaseUrl = none →
    CarriesLink toLowerCase hmac parseUrl row domain settings
      (attemptOptions toLowerCase hmac parseUrl (some .marketing) row domain settings)
  /-- The token and the `unsub+` address resolve, in any letter case, to the email and the only address
  it goes to. -/
  resolves : ∀ token, TokenOf toLowerCase hmac row token → ∃ recipient senderDomain,
    recipientOrder toLowerCase row.toAddress row.cc row.bcc = [recipient] ∧
    domainAfterAt toLowerCase row.fromAddress = some senderDomain ∧
    (∀ presented, asciiLower presented = token →
      resolveUnsubscribeToken toLowerCase hmac emails presented =
        some ⟨row.id, row.apiKeyId, recipient, senderDomain, row.tags⟩) ∧
    ∀ localPart domain, asciiLower localPart = unsubscribeLocalPart token → '@' ∉ domain →
      toLowerCase (trim domain) = senderDomain →
      ∃ presented, tokenFromUnsubscribeAddress (localPart ++ '@' :: domain) = some presented ∧
        resolveUnsubscribeRecipient toLowerCase hmac emails presented (localPart ++ '@' :: domain) =
          some ⟨row.id, row.apiKeyId, recipient, senderDomain, row.tags⟩
  /-- An email that goes to several addresses has no token. -/
  several : 1 < (recipientOrder toLowerCase row.toAddress row.cc row.bcc).length →
    (∀ token, ¬TokenOf toLowerCase hmac row token) ∧ ∀ domain settings,
      listUnsubscribeOptions toLowerCase hmac parseUrl row domain settings = staticOptions domain
  /-- When only MACs of minted tokens are known and no two collide, only minted tokens resolve. -/
  unforged : ∀ minted ⊆ Subjects toLowerCase sent,
    Set.InjOn (truncated hmac MAC_BYTES) (macInput toLowerCase '' Subjects toLowerCase sent) →
    ∀ presented, (∀ parsed, parseUnsubscribeToken toLowerCase presented = some parsed →
      ∃ s ∈ minted, computeMac toLowerCase hmac s = parsed.mac) →
    ∀ target, resolveUnsubscribeToken toLowerCase hmac emails presented = some target →
      ⟨target.emailId, target.recipient⟩ ∈ minted ∧
        mintUnsubscribeToken toLowerCase hmac ⟨target.emailId, target.recipient⟩ =
          some (toLowerCase presented)

variable {toLowerCase hmac parseUrl} {row : EmailRow τ} {emails sent : Table (EmailRow.id (τ := τ))}
  {domain : Option ListUnsubscribeDomain} {settings : ListUnsubscribeSettings}

theorem oneClickBlocker_eq_none {to_ appBaseUrl : Text} {cc bcc : Option Text} :
    oneClickBlocker toLowerCase parseUrl to_ cc bcc appBaseUrl = none ↔
      (∃ recipient, soleRecipient toLowerCase to_ cc bcc = some recipient) ∧
        ∃ base, oneClickBaseUrl parseUrl appBaseUrl = some base := by
  unfold oneClickBlocker
  rw [← Option.ne_none_iff_exists', ← Option.ne_none_iff_exists']
  split_ifs with hsole hbase
  · simp [hsole]
  · simp [hbase]
  · simp [hsole, hbase]

/-- Something blocks the link: the options are static, whatever the sender. -/
theorem static_of_blocked
    (h : oneClickBlocker toLowerCase parseUrl row.toAddress row.cc row.bcc settings.appBaseUrl ≠ none) :
    listUnsubscribeOptions toLowerCase hmac parseUrl row domain settings = staticOptions domain := by
  unfold listUnsubscribeOptions
  cases hbase : oneClickBaseUrl parseUrl settings.appBaseUrl with
  | none => rfl
  | some base =>
    cases hsole : soleRecipient toLowerCase row.toAddress row.cc row.bcc with
    | none => rfl
    | some recipient => exact absurd (oneClickBlocker_eq_none.mpr ⟨⟨_, hsole⟩, _, hbase⟩) h

/-- Nothing blocks the link, and the sender has a domain: it is there. -/
theorem carriesLink {senderDomain : Text} (hid : (EMAIL_ID_RE row.id).isSome)
    (hdomain : domainAfterAt toLowerCase row.fromAddress = some senderDomain)
    (h : oneClickBlocker toLowerCase parseUrl row.toAddress row.cc row.bcc settings.appBaseUrl = none) :
    CarriesLink toLowerCase hmac parseUrl row domain settings
      (listUnsubscribeOptions toLowerCase hmac parseUrl row domain settings) := by
  obtain ⟨⟨recipient, hsole⟩, base, hbase⟩ := oneClickBlocker_eq_none.mp h
  obtain ⟨hex, hhex⟩ := Option.isSome_iff_exists.mp hid
  obtain ⟨hemail, hshape⟩ := EMAIL_ID_RE_eq_some.mp hhex
  obtain ⟨token, hmint⟩ : ∃ token,
      mintUnsubscribeToken toLowerCase hmac ⟨row.id, recipient⟩ = some token :=
    ⟨_, mintUnsubscribeToken_eq_some.mpr ⟨hex, hemail, hshape, rfl⟩⟩
  refine ⟨base, token, senderDomain, hbase, ⟨recipient, hsole, hmint⟩, hdomain, ?_⟩
  unfold listUnsubscribeOptions
  rw [hbase, hsole, hdomain]
  dsimp only
  rw [hmint]

/-- Subjects with one input are one subject. -/
theorem injOn_macInput (hlow : IsLowerCase toLowerCase) :
    Set.InjOn (macInput toLowerCase) (Subjects toLowerCase sent) := by
  rintro s ⟨hsId, srow, _, _, hs⟩ t ⟨htId, trow, _, _, ht⟩ heq
  have hnormal : ∀ {to_ recipient : Text} {cc bcc : Option Text},
      soleRecipient toLowerCase to_ cc bcc = some recipient →
        toLowerCase (trim recipient) = recipient := by
    intro to_ recipient cc bcc hsole
    have hmem : recipient ∈ recipientOrder toLowerCase to_ cc bcc := by
      rw [recipientOrder_of_sole hsole]
      exact List.mem_singleton_self _
    obtain ⟨htrim, hlower⟩ := recipient_normal hlow hmem
    rw [htrim, hlower]
  obtain ⟨hemails, hrecipients⟩ := macInput_inj hsId htId heq
  rw [hnormal hs, hnormal ht] at hrecipients
  cases s
  cases t
  simp_all only

/-- **The links of a sender with a domain.** -/
theorem unsubscribeLinks (hlow : IsLowerCase toLowerCase) {senderDomain : Text}
    (hdomain : domainAfterAt toLowerCase row.fromAddress = some senderDomain)
    (hsent : ∀ row ∈ emails.rows, row ∈ sent.rows) (hrow : row ∈ emails.rows)
    (hid : (EMAIL_ID_RE row.id).isSome) :
    UnsubscribeLinks toLowerCase hmac parseUrl sent emails row where
  carried domain settings h := carriesLink hid hdomain h
  blocked domain settings h := static_of_blocked h
  marketing domain settings h := by
    unfold marketingBlocker at h
    unfold attemptOptions
    rw [if_pos rfl] at h
    rw [if_neg (by decide)]
    exact carriesLink hid hdomain h
  resolves token := by
    rintro ⟨recipient, hsole, hmint⟩
    exact ⟨recipient, senderDomain, recipientOrder_of_sole hsole, hdomain,
      fun presented hcase => resolve_of_token hlow hrow hsole hmint hdomain hcase,
      fun localPart domain hlocal hd hat =>
        resolve_of_address hlow hrow hsole hmint hdomain hlocal hd hat⟩
  several h := by
    have hnone := soleRecipient_eq_none (ne_of_gt h)
    refine ⟨?_, fun domain settings => static_of_blocked ?_⟩
    · rintro token ⟨recipient, hsole, _⟩
      rw [hnone] at hsole
      cases hsole
    · intro hblocker
      obtain ⟨⟨recipient, hsole⟩, _⟩ := oneClickBlocker_eq_none.mp hblocker
      rw [hnone] at hsole
      cases hsole
  unforged minted hminted hcollision presented hknown target h := by
    obtain ⟨row', hrow', hemail, hsole, hmint, hparse⟩ := token_of_resolve h
    obtain ⟨hex, hhexId, hhex, _⟩ := mintUnsubscribeToken_eq_some.mp hmint
    have hsubject : (⟨target.emailId, target.recipient⟩ : UnsubscribeTokenSubject) ∈
        Subjects toLowerCase sent := by
      refine ⟨?_, row', hsent row' hrow', hemail.symm, hsole⟩
      rw [EMAIL_ID_RE_eq_some.mpr ⟨hhexId, hhex⟩]
      rfl
    exact ⟨mem_of_verified (injOn_macInput hlow) hcollision hminted hsubject (hknown _ hparse) rfl,
      hmint⟩

/-- One address is the only recipient. -/
theorem soleRecipient_address {address : Text} (h : isEmailAddress address = true) :
    soleRecipient toLowerCase address none none = some (toLowerCase address) := by
  have hre := (Bool.and_eq_true_iff.mp h).2
  have hpieces : piecesOf (some address) = [address] := by
    show (address.splitOn ',').map trim = [address]
    rw [List.splitOn_eq_singleton (comma_notMem_of_EMAIL_RE hre), List.map_singleton,
      trim_of_EMAIL_RE hre]
  have hmem : ∀ k, k ∈ recipientOrder toLowerCase address none none ↔ k ∈ [toLowerCase address] := by
    intro k
    have hnone : k ∉ addressesOf toLowerCase (piecesOf none) := List.not_mem_nil
    rw [mem_recipientOrder, or_iff_left (fun hk => hk.elim hnone hnone), hpieces]
    unfold addressesOf
    rw [List.filter_cons_of_pos h]
    rfl
  have hperm : (recipientOrder toLowerCase address none none).Perm [toLowerCase address] :=
    (List.perm_ext_iff_of_nodup nodup_recipientOrder (List.nodup_singleton _)).mpr hmem
  exact soleRecipient_eq_some.mpr ⟨rfl, rfl, List.perm_singleton.mp hperm⟩

/-- **The links of a sender are in place exactly when its domain is not blank.** -/
theorem unsubscribeLinks_iff (hlow : IsLowerCase toLowerCase)
    (hurl : parseUrl "https://mail.example" = some ⟨"https:", [], []⟩) {localPart senderDomain : Text}
    (hl : '@' ∉ localPart) (hd : '@' ∉ senderDomain) :
    (∀ sent emails : Table (EmailRow.id (τ := τ)), (∀ row ∈ emails.rows, row ∈ sent.rows) →
      ∀ row ∈ emails.rows, row.fromAddress = localPart ++ '@' :: senderDomain →
        (EMAIL_ID_RE row.id).isSome → UnsubscribeLinks toLowerCase hmac parseUrl sent emails row) ↔
      trim senderDomain ≠ [] := by
  constructor
  · intro h hblank
    obtain ⟨row, hrow⟩ : ∃ row : EmailRow τ, row = ⟨"msg_000000000000000000000000", "key",
      localPart ++ '@' :: senderDomain, "a@y.org", none, none, none⟩ := ⟨_, rfl⟩
    obtain ⟨emails, hemails⟩ : ∃ emails : Table (EmailRow.id (τ := τ)), emails.rows = [row] :=
      ⟨⟨[row], List.nodup_singleton _⟩, rfl⟩
    have hmem : row ∈ emails.rows := by
      rw [hemails]
      exact List.mem_singleton_self row
    have hlinks := h emails emails (fun _ hr => hr) row hmem (by rw [hrow])
      (by rw [hrow]; exact (by decide +kernel :
        (EMAIL_ID_RE "msg_000000000000000000000000".toList).isSome))
    have hbase : oneClickBaseUrl parseUrl "https://mail.example" = some "https://mail.example" := by
      have hslash : (trim "https://mail.example".toList).rdropWhile (· = '/') =
          "https://mail.example".toList := by decide +kernel
      unfold oneClickBaseUrl
      dsimp only
      rw [hslash, hurl]
      rfl
    have hblocker : oneClickBlocker toLowerCase parseUrl row.toAddress row.cc row.bcc
        "https://mail.example" = none := by
      have haddress : isEmailAddress "a@y.org".toList = true := by decide +kernel
      rw [oneClickBlocker_eq_none, hrow]
      exact ⟨⟨_, soleRecipient_address haddress⟩, _, hbase⟩
    obtain ⟨_, _, at_, _, _, hdomain, _⟩ := hlinks.carried none ⟨"https://mail.example", false⟩ hblocker
    rw [hrow, domainAfterAt_at hlow hl hd, if_pos hblank] at hdomain
    cases hdomain
  · intro hne sent emails hsent row hrow hfrom hid
    have hdomain : domainAfterAt toLowerCase row.fromAddress = some (toLowerCase (trim senderDomain)) := by
      rw [hfrom, domainAfterAt_at hlow hl hd, if_neg hne]
    exact unsubscribeLinks hlow hdomain hsent hrow hid

end Links

/-! ## A sender with a domain, and one without -/

/-- An email to one recipient, from a sender. -/
def emailFrom (fromAddress : Text) : EmailRow Unit where
  id := "msg_0123456789abcdef01234567"
  apiKeyId := "key_1"
  fromAddress := fromAddress
  toAddress := "A@y.org"
  cc := none
  bcc := some " "
  tags := none

/-- The table with this email. -/
def oneEmail (fromAddress : Text) : Table (EmailRow.id (τ := Unit)) :=
  ⟨[emailFrom fromAddress], List.nodup_singleton _⟩

/-- The HMAC-SHA256 of its subject, under the key derived from 32 zero bytes. -/
def zeroKeyHmac : Hmac := fun input =>
  if input = "unsubscribe:v1:msg_0123456789abcdef01234567:a@y.org" then
    #v[110, 3, 187, 217, 163, 40, 197, 191, 60, 161, 207, 202, 45, 48, 181, 27, 247, 30, 45, 127, 53, 137,
      61, 132, 204, 47, 249, 205, 63, 75, 100, 82]
  else Vector.replicate 32 0

/-- The base URL as it is parsed. -/
def parseBase (text : Text) : Option Url :=
  if text = "https://mail.example" then some ⟨"https:", [], []⟩ else none

/-- The link of an email from `me@x.org` is there, and its shouted token resolves to the recipient. -/
theorem unsubscribeLinks_iff_domain :
    UnsubscribeLinks asciiLower zeroKeyHmac parseBase (oneEmail "me@x.org") (oneEmail "me@x.org")
        (emailFrom "me@x.org") ∧
      oneClickBlocker asciiLower parseBase "A@y.org" none (some " ") "https://mail.example/" = none ∧
      resolveUnsubscribeToken asciiLower zeroKeyHmac (oneEmail "me@x.org")
        "0123456789ABCDEF01234567.6E03BBD9A328C5BF3CA1CFCA2D30B51B" =
          some ⟨"msg_0123456789abcdef01234567", "key_1", "a@y.org", "x.org", none⟩ := by
  refine ⟨?_, by decide +kernel, by decide +kernel⟩
  have hall := (@unsubscribeLinks_iff Unit asciiLower zeroKeyHmac parseBase isLowerCase_asciiLower
    (by rfl) "me" "x.org" (by decide) (by decide)).mpr (by decide +kernel)
  exact hall (oneEmail "me@x.org") (oneEmail "me@x.org") (fun _ h => h) (emailFrom "me@x.org")
    (List.mem_singleton_self _) rfl (by decide +kernel)

/-- `me@` has no domain: nothing blocks the link of a marketing email from it, and its header goes
without. -/
theorem not_unsubscribeLinks_blank :
    marketingBlocker asciiLower parseBase (some .marketing) "A@y.org" none (some " ")
        "https://mail.example/" = none ∧
      attemptOptions asciiLower zeroKeyHmac parseBase (some .marketing) (emailFrom "me@") none
        ⟨"https://mail.example/", true⟩ = none ∧
      ¬UnsubscribeLinks asciiLower zeroKeyHmac parseBase (oneEmail "me@") (oneEmail "me@")
        (emailFrom "me@") := by
  refine ⟨by decide +kernel, by decide +kernel, fun h => ?_⟩
  obtain ⟨_, _, _, _, _, hdomain, _⟩ := h.carried none ⟨"https://mail.example/", true⟩ (by decide +kernel)
  have hnone : domainAfterAt asciiLower "me@".toList = none := by decide +kernel
  exact absurd (hnone.symm.trans hdomain) (Option.some_ne_none _).symm

end BunMail.Unsubscribe
