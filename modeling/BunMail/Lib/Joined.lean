import BunMail.Lib.Rows

/-!
# Reading joined texts back

Texts are joined with a separator and closed.  When each of them is read back from its place, wherever
a unit that cannot go on follows it, all of them are.
-/

variable {α ε : Type*}

/-- The text ends, or goes on with one of these units. -/
def Stops (stops : α → Prop) (r : List α) : Prop := ∀ u ∈ r.head?, stops u

theorem stops_nil (stops : α → Prop) : Stops stops ([] : List α) := fun _ h => nomatch h

theorem stops_cons {stops : α → Prop} {u : α} (h : stops u) (r : List α) : Stops stops (u :: r) := by
  intro v hv
  obtain rfl := Option.some.inj hv
  exact h

/-- A text without a stop is read back up to the stop. -/
theorem append_inj_of_stops {p : α → Bool} {a b r r' : List α} (ha : ∀ u ∈ a, p u = false)
    (hb : ∀ u ∈ b, p u = false) (hr : Stops (p · = true) r) (hr' : Stops (p · = true) r')
    (h : a ++ r = b ++ r') : a = b ∧ r = r' := by
  induction a generalizing b with
  | nil =>
    cases b with
    | nil => exact ⟨rfl, h⟩
    | cons v b =>
      have hv : p v = true := hr v (by rw [← List.nil_append r, h]; rfl)
      exact absurd hv (by rw [hb v List.mem_cons_self]; exact Bool.false_ne_true)
  | cons u a ih =>
    cases b with
    | nil =>
      have hu : p u = true := hr' u (by rw [← List.nil_append r', ← h]; rfl)
      exact absurd hu (by rw [ha u List.mem_cons_self]; exact Bool.false_ne_true)
    | cons v b =>
      obtain ⟨rfl, htail⟩ := List.cons.inj h
      obtain ⟨rfl, hrest⟩ := ih (fun w hw => ha w (List.mem_cons_of_mem _ hw))
        (fun w hw => hb w (List.mem_cons_of_mem _ hw)) htail
      exact ⟨rfl, hrest⟩

/-- In lists whose elements are related one by one, every element has its partner. -/
theorem exists_partner {β γ : Type*} {R : β → γ → Prop} {l : List β} {l' : List γ} (h : List.Forall₂ R l l')
    {a : β} (ha : a ∈ l) : ∃ b ∈ l', R a b := by
  induction h with
  | nil => exact nomatch ha
  | cons hab _ ih =>
    rcases List.mem_cons.mp ha with rfl | ha
    · exact ⟨_, List.mem_cons_self, hab⟩
    · obtain ⟨b, hb, hR⟩ := ih ha
      exact ⟨b, List.mem_cons_of_mem _ hb, hR⟩

theorem map_eq_of_related {β γ : Type*} {R : β → β → Prop} {f : β → γ} {l l' : List β}
    (h : List.Forall₂ R l l') (hf : ∀ a ∈ l, ∀ b ∈ l', R a b → f a = f b) : l.map f = l'.map f := by
  induction h with
  | nil => rfl
  | cons hab _ ih =>
    rw [List.map_cons, List.map_cons, hf _ List.mem_cons_self _ List.mem_cons_self hab,
      ih fun a ha b hb => hf a (List.mem_cons_of_mem _ ha) b (List.mem_cons_of_mem _ hb)]

section Joined

variable {stops : α → Prop} {sep close : α} {text : ε → List α} {items items' : List ε} {r r' : List α}

/-- What follows an item: the end, or the next items behind a separator. -/
def followed (sep close : α) (text : ε → List α) (items : List ε) (r : List α) : List α :=
  if items.isEmpty then close :: r else sep :: ([sep].intercalate (items.map text) ++ close :: r)

theorem joined_cons (item : ε) (items : List ε) (r : List α) :
    [sep].intercalate ((item :: items).map text) ++ close :: r =
      text item ++ followed sep close text items r := by
  unfold followed
  cases items with
  | nil => simp [List.intercalate]
  | cons next items =>
    rw [List.map_cons, intercalate_cons_of_ne_nil _ (by simp)]
    simp

theorem stops_followed (hsep : stops sep) (hclose : stops close) :
    Stops stops (followed sep close text items r) := by
  unfold followed
  split_ifs
  · exact stops_cons hclose r
  · exact stops_cons hsep _

variable (stops) in
/-- **Joined texts are read back one by one.** -/
theorem joined_inj {R : ε → ε → Prop} (hsep : stops sep) (hclose : stops close) (hne : sep ≠ close)
    (hbegins : ∀ item, ∃ u rest, text item = u :: rest ∧ ¬stops u)
    (hread : ∀ item ∈ items, ∀ item' ∈ items', ∀ r r', Stops stops r → Stops stops r' →
      text item ++ r = text item' ++ r' → R item item' ∧ r = r')
    (h : [sep].intercalate (items.map text) ++ close :: r =
      [sep].intercalate (items'.map text) ++ close :: r') : List.Forall₂ R items items' ∧ r = r' := by
  induction items generalizing items' with
  | nil =>
    cases items' with
    | nil => exact ⟨.nil, (List.cons.inj h).2⟩
    | cons item' items' =>
      rw [joined_cons] at h
      obtain ⟨u, rest, htext, hgoes⟩ := hbegins item'
      rw [htext] at h
      exact absurd ((List.cons.inj h).1 ▸ hclose) hgoes
  | cons item items ih =>
    cases items' with
    | nil =>
      rw [joined_cons] at h
      obtain ⟨u, rest, htext, hgoes⟩ := hbegins item
      rw [htext] at h
      exact absurd ((List.cons.inj h).1 ▸ hclose) hgoes
    | cons item' items' =>
      rw [joined_cons, joined_cons] at h
      obtain ⟨hitem, hrest⟩ := hread item List.mem_cons_self item' List.mem_cons_self _ _
        (stops_followed hsep hclose) (stops_followed hsep hclose) h
      have hmore : ∀ a ∈ items, ∀ b ∈ items', ∀ r r', Stops stops r → Stops stops r' →
          text a ++ r = text b ++ r' → R a b ∧ r = r' := fun a ha b hb =>
        hread a (List.mem_cons_of_mem _ ha) b (List.mem_cons_of_mem _ hb)
      unfold followed at hrest
      cases items with
      | nil =>
        cases items' with
        | nil => exact ⟨.cons hitem .nil, (List.cons.inj hrest).2⟩
        | cons next' items' => exact absurd (List.cons.inj hrest).1.symm hne
      | cons next items =>
        cases items' with
        | nil => exact absurd (List.cons.inj hrest).1 hne
        | cons next' items' =>
          obtain ⟨hitems, hend⟩ := ih hmore (List.cons.inj hrest).2
          exact ⟨.cons hitem hitems, hend⟩

end Joined
