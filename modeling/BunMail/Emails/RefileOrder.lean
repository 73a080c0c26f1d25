import BunMail.Emails.Conservation

/-!
# Re-filing and the order of keys

A pass that re-files entries may assign a key twice, and then the later assignment stands.  A
stored state comes with its keys by length, and every key a pass makes is longer than the one it
is made from, so a settled entry is assigned after anything filed under its key.  `withDomains`
assigns no key twice at all, on keys from before the domain column as on later ones.
-/

namespace BunMail.Emails

open Recipients Run

section Order

variable {toLowerCase : Text → Text} {state : DeliveryState} {key : Text} {group : DeliveryGroup}

/-! ## Passes and the order of keys -/

theorem utf8Length_append (s t : Text) :
    Text.utf8Length (s ++ t) = Text.utf8Length s + Text.utf8Length t := by
  unfold Text.utf8Length
  rw [List.map_append, List.sum_append]

theorem utf8Length_cons_pos (c : Char) (s : Text) : 0 < Text.utf8Length (c :: s) := by
  unfold Text.utf8Length
  rw [List.map_cons, List.sum_cons]
  have := c.utf8Size_pos
  omega

/-- A key is kept or gets longer. -/
def Lengthens (e : Text × DeliveryGroup) (pieces : List (Text × DeliveryGroup)) : Prop :=
  ∀ p ∈ pieces, p.1 = e.1 ∨ Text.utf8Length e.1 < Text.utf8Length p.1

theorem lengthens_self {e : Text × DeliveryGroup} : Lengthens e [e] := by
  intro p hp
  rw [List.mem_singleton.mp hp]
  exact .inl rfl

theorem utf8Length_lt_append_cons (key : Text) (c : Char) (s : Text) :
    Text.utf8Length key < Text.utf8Length (key ++ c :: s) := by
  rw [utf8Length_append]
  have := utf8Length_cons_pos c s
  omega

theorem lengthens_domainPieces (e : Text × DeliveryGroup) :
    Lengthens e (domainPieces toLowerCase e) := by
  obtain ⟨key, group⟩ := e
  unfold domainPieces
  dsimp only
  split_ifs
  · exact lengthens_self
  · intro p hp
    rw [List.mem_singleton.mp hp]
    exact .inl rfl
  · intro p hp
    obtain ⟨b, _, rfl⟩ := List.mem_map.mp hp
    exact .inr (utf8Length_lt_append_cons key _ _)

theorem utf8Length_lt_splitKey (paths : ReturnPaths) (key recipient : Text) (position : ℕ) :
    Text.utf8Length key < Text.utf8Length (splitKey toLowerCase paths key recipient position) := by
  unfold splitKey
  cases (paths.get? (toLowerCase recipient)).map RecipientReturnPath.index <;>
    exact utf8Length_lt_append_cons key _ _

theorem lengthens_recipientPieces (paths : ReturnPaths) (e : Text × DeliveryGroup) :
    Lengthens e (recipientPieces toLowerCase paths e) := by
  obtain ⟨key, group⟩ := e
  unfold recipientPieces
  dsimp only
  split_ifs
  · exact lengthens_self
  · intro p hp
    obtain ⟨x, _, rfl⟩ := List.mem_map.mp hp
    exact .inr (utf8Length_lt_splitKey paths key _ _)

/-- No key after a settled entry is shorter than that of the entry. -/
def SettledLate (state : DeliveryState) : Prop :=
  state.rows.Pairwise fun a b =>
    a.2.status ≠ .retry → Text.utf8Length a.1 ≤ Text.utf8Length b.1

theorem settledLate_of_byLength (h : ByLength state) : SettledLate state := by
  refine (List.pairwise_map.mp h).imp fun {a b} hle _ => ?_
  exact hle

/-- A pass leaves a settled entry where it is when no shorter key comes after it. -/
theorem get?_pass_of_settledLate {pieces : Text × DeliveryGroup → List (Text × DeliveryGroup)}
    (hr : ∀ e, Refiles e (pieces e)) (hx : ∀ e, Lengthens e (pieces e)) (hl : SettledLate state)
    (hg : state.get? key = some group) (hs : group.status ≠ .retry) :
    (Table.ofEntries (state.rows.flatMap pieces)).get? key = some group := by
  rw [Table.get?_eq_some_iff] at hg
  obtain ⟨before, after, hrows⟩ := List.append_of_mem hg
  have hlate : ∀ e ∈ after, Text.utf8Length key ≤ Text.utf8Length e.1 := by
    intro e he
    unfold SettledLate at hl
    rw [hrows, List.pairwise_append, List.pairwise_cons] at hl
    exact hl.2.1.1 e he hs
  have hother : ∀ e ∈ after, e.1 ≠ key := by
    rintro e he rfl
    have hn := state.unique
    rw [hrows, List.map_append, List.map_cons, List.nodup_append, List.nodup_cons] at hn
    exact hn.2.1.1 (List.mem_map.mpr ⟨e, he, rfl⟩)
  rw [hrows, List.flatMap_append, List.flatMap_cons, (hr (key, group)).kept hs,
    List.singleton_append]
  apply Table.get?_ofEntries_last
  intro hm
  obtain ⟨p, hp, rfl⟩ := List.mem_map.mp hm
  obtain ⟨e, he, hpe⟩ := List.mem_flatMap.mp hp
  rcases hx e p hpe with h | h
  · exact hother e he h.symm
  · have := hlate e he
    omega

/-- A clean pass keeps the order. -/
theorem settledLate_pass {pieces : Text × DeliveryGroup → List (Text × DeliveryGroup)}
    (hr : ∀ e, Refiles e (pieces e)) (hx : ∀ e, Lengthens e (pieces e)) (hc : CleanPass pieces state)
    (hl : SettledLate state) : SettledLate (Table.ofEntries (state.rows.flatMap pieces)) := by
  unfold SettledLate
  rw [rows_of_cleanPass hc, List.pairwise_flatMap]
  constructor
  · intro e _
    by_cases hs : e.2.status = .retry
    · refine List.pairwise_of_forall_mem_list fun p hp q _ hsp => ?_
      exact absurd (((hr e).status p hp).trans hs) hsp
    · rw [(hr e).kept hs]
      exact List.pairwise_singleton _ _
  · refine hl.imp fun {a b} hab p hp q hq hsp => ?_
    have hsa : a.2.status ≠ .retry := fun h => hsp (((hr a).status p hp).trans h)
    rw [(hr a).kept hsa, List.mem_singleton] at hp
    subst hp
    have hlen := hab hsa
    rcases hx b q hq with h | h
    · rwa [h]
    · omega

/-! ## When `withDomains` assigns no key twice -/

/-- Keys as they were before the domain column: MX hosts, which have no `|`, and entries without a
route. -/
def LegacyKeys (state : DeliveryState) : Prop := ∀ key ∈ state.keys, isDnsKey key = true ∨ '|' ∉ key

/-- `withDomains` has nothing to do on an entry. -/
def HasDomain (key : Text) (group : DeliveryGroup) : Prop :=
  group.status ≠ .retry ∨ group.domain ≠ none ∨ isDnsKey key = true ∨ group.recipients = []

/-- `withDomains` has nothing to do. -/
def HasDomains (state : DeliveryState) : Prop :=
  ∀ key group, state.get? key = some group → HasDomain key group

/-- A key without `|` is what comes before the first one. -/
theorem append_bar_inj {k k' d d' : Text} (hk : '|' ∉ k) (hk' : '|' ∉ k')
    (h : k ++ '|' :: d = k' ++ '|' :: d') : k = k' ∧ d = d' := by
  have htake : ∀ {k : Text} (d : Text), '|' ∉ k → (k ++ '|' :: d).takeWhile (· ≠ '|') = k := by
    intro k d hk
    rw [List.takeWhile_append_of_pos, List.takeWhile_cons_of_neg (by simp), List.append_nil]
    intro c hc
    simpa using fun h : c = '|' => hk (h ▸ hc)
  have heq : k = k' := by rw [← htake d hk, h, htake d' hk']
  subst heq
  exact ⟨rfl, (List.cons.inj (List.append_cancel_left h)).2⟩

/-- A key made from one that is no `<dns:` key is none either. -/
theorem isDnsKey_of_append_bar {k d : Text} (h : isDnsKey (k ++ '|' :: d) = true) :
    isDnsKey k = true := by
  unfold isDnsKey at h ⊢
  rw [List.isPrefixOf_iff_prefix] at h ⊢
  have hbar : '|' ∉ "<dns:".toList := by decide
  have hk : k ++ ['|'] <+: k ++ '|' :: d := ⟨d, by rw [List.append_assoc]; rfl⟩
  rcases List.prefix_or_prefix_of_prefix h hk with h | h
  · rcases List.prefix_concat_iff.mp h with h | h
    · rw [h] at hbar
      exact absurd (List.mem_append_right _ (List.mem_singleton_self _)) hbar
    · exact h
  · exact absurd (h.subset (List.mem_append_right _ (List.mem_singleton_self _))) hbar

/-- The keys `withDomains` assigns for an entry. -/
theorem key_of_mem_domainPieces {e p : Text × DeliveryGroup}
    (hp : p ∈ domainPieces toLowerCase e) :
    p.1 = e.1 ∨ isDnsKey e.1 = false ∧ ∃ d, p.1 = e.1 ++ '|' :: d := by
  obtain ⟨key, group⟩ := e
  unfold domainPieces at hp
  dsimp only at hp
  split_ifs at hp with hkeep
  · rw [List.mem_singleton.mp hp]
    exact .inl rfl
  · rw [List.mem_singleton.mp hp]
    exact .inl rfl
  · obtain ⟨b, _, rfl⟩ := List.mem_map.mp hp
    refine .inr ⟨?_, b.1, rfl⟩
    by_contra hdns
    exact hkeep (.inr (.inr (.inl ((Bool.not_eq_false _).mp hdns))))

theorem nodup_keys_domainPieces (e : Text × DeliveryGroup) :
    ((domainPieces toLowerCase e).map Prod.fst).Nodup := by
  obtain ⟨key, group⟩ := e
  unfold domainPieces
  dsimp only
  split_ifs
  · exact List.nodup_singleton _
  · exact List.nodup_singleton _
  · rw [List.map_map]
    have hn := (Table.groupBy (domainOf toLowerCase) group.recipients).unique
    have hkeys := hn.map (f := fun d => key ++ '|' :: d)
      fun d d' h => (List.cons.inj (List.append_cancel_left h)).2
    rwa [List.map_map] at hkeys

theorem cleanPass_of_legacyKeys (h : LegacyKeys state) :
    CleanPass (domainPieces toLowerCase) state := by
  unfold CleanPass
  rw [List.map_flatMap, List.nodup_flatMap]
  refine ⟨fun e _ => nodup_keys_domainPieces e, ?_⟩
  have hpair : state.rows.Pairwise fun a b => a.1 ≠ b.1 := List.pairwise_map.mp state.unique
  refine hpair.imp_of_mem fun {a b} ha hb hne x hxa hxb => ?_
  obtain ⟨p, hp, rfl⟩ := List.mem_map.mp hxa
  obtain ⟨q, hq, hqp⟩ := List.mem_map.mp hxb
  have hka := h a.1 (List.mem_map_of_mem ha)
  have hkb := h b.1 (List.mem_map_of_mem hb)
  have hbar : ∀ {k k' d : Text}, isDnsKey k = false → (isDnsKey k' = true ∨ '|' ∉ k') →
      k ++ '|' :: d ≠ k' := by
    rintro k k' d hk hk' rfl
    rcases hk' with hk' | hk'
    · rw [isDnsKey_of_append_bar hk'] at hk
      cases hk
    · exact hk' (List.mem_append_right _ List.mem_cons_self)
  -- a key made by the pass is no key of the state, and shows the key it is made from
  rcases key_of_mem_domainPieces hp with h₁ | ⟨hda, d, h₁⟩ <;>
    rcases key_of_mem_domainPieces hq with h₂ | ⟨hdb, d', h₂⟩
  · exact hne (h₁.symm.trans (hqp.symm.trans h₂))
  · exact hbar hdb hka (h₂.symm.trans (hqp.trans h₁))
  · exact hbar hda hkb (h₁.symm.trans (hqp.symm.trans h₂))
  · have hna := hka.resolve_left (by rw [hda]; exact Bool.false_ne_true)
    have hnb := hkb.resolve_left (by rw [hdb]; exact Bool.false_ne_true)
    exact hne (append_bar_inj hna hnb (h₁.symm.trans (hqp.symm.trans h₂))).1

theorem cleanPass_of_hasDomains (h : HasDomains state) :
    CleanPass (domainPieces toLowerCase) state := by
  have hrows : state.rows.flatMap (domainPieces toLowerCase) = state.rows := by
    conv_rhs => rw [← List.flatMap_singleton' state.rows]
    exact List.flatMap_congr fun e he => if_pos (h e.1 e.2 (Table.get?_eq_some_iff.mpr he))
  unfold CleanPass
  rw [hrows]
  exact state.unique

end Order

end BunMail.Emails
