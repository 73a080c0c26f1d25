import BunMail.Utils.DnsSections

/-!
# The answers of a response

`chainOwners` walks the links of the CNAME records, which lead from each name to one name at most, and
the loop over the TXT records keeps those of the names the walk has met.
-/

namespace BunMail.DnsWire

open Text Dns

variable {m : Bytes}

/-! ## Links -/

theorem target_unique {limit : ℕ} {r : Record} {target target' : List Text} {stop stop' : ℕ}
    (h : Name m limit r.rdataStart target stop) (h' : Name m limit r.rdataStart target' stop')
    (hlimit : limit = MAX_POINTER_JUMPS) : target = target' := by
  rw [hlimit] at h h'
  have hread := readName_eq_ok.mpr h
  rw [readName_eq_ok.mpr h'] at hread
  exact (Prod.mk.inj (Except.ok.inj hread)).1.symm

section Targets

variable {targets targets' : Targets} {rs : List Record}

/-- A record that is no CNAME is passed over. -/
theorem addTargets_of_not {r : Record} (h : ¬ IsCname r) :
    addTargets m targets (r :: rs) = addTargets m targets rs := by
  have hor : r.type ≠ TYPE_CNAME ∨ r.rrClass ≠ CLASS_IN := by
    by_contra hno
    rw [not_or, not_not, not_not] at hno
    exact h hno
  exact if_pos hor

/-- A CNAME record's target is read and put. -/
theorem addTargets_of_cname {r : Record} (h : IsCname r) :
    addTargets m targets (r :: rs) = .ok targets' ↔
      ∃ target, Target m MAX_POINTER_JUMPS r target ∧
        (∀ known, targets.get? r.owner = some known → known = target) ∧
        addTargets m (targets.put r.owner target) rs = .ok targets' := by
  have hor : ¬ (r.type ≠ TYPE_CNAME ∨ r.rrClass ≠ CLASS_IN) := fun hno =>
    hno.elim (fun hne => hne h.1) fun hne => hne h.2
  rw [addTargets, if_neg hor, bind_eq_ok]
  constructor
  · rintro ⟨⟨target, next⟩, hread, hrest⟩
    dsimp only at hrest
    split_ifs at hrest with hnext hknown
    rw [not_not] at hnext
    subst hnext
    refine ⟨target, readName_eq_ok.mp hread, fun known hget => ?_, hrest⟩
    by_contra hne
    rw [hget] at hknown
    exact hknown (decide_eq_true hne)
  · rintro ⟨target, htarget, hknown, hrest⟩
    refine ⟨(target, r.rdataEnd), readName_eq_ok.mpr htarget, ?_⟩
    have hsame : ¬ ((targets.get? r.owner).any fun known => decide (known ≠ target)) = true := by
      cases hget : targets.get? r.owner with
      | none => exact Bool.false_ne_true
      | some known => exact fun hne => of_decide_eq_true hne (hknown known hget)
    dsimp only
    rw [if_neg (fun h => h rfl), if_neg hsame]
    exact hrest

/-- **The map holds the links.** By induction on the records. -/
theorem addTargets_spec (h : addTargets m targets rs = .ok targets') :
    (∀ r ∈ rs, IsCname r → ∃ target, Target m MAX_POINTER_JUMPS r target) ∧
      ∀ owner target, targets'.get? owner = some target ↔
        targets.get? owner = some target ∨ Link m MAX_POINTER_JUMPS rs owner target := by
  induction rs generalizing targets with
  | nil =>
    obtain rfl := Except.ok.inj h
    refine ⟨fun _ h => absurd h List.not_mem_nil, fun owner target => ?_⟩
    have hnone : ¬ Link m MAX_POINTER_JUMPS [] owner target := fun ⟨_, h, _⟩ =>
      absurd h List.not_mem_nil
    exact ⟨.inl, fun h => h.resolve_right hnone⟩
  | cons r rs ih =>
    by_cases hr : IsCname r
    · obtain ⟨target, htarget, hknown, hrest⟩ := (addTargets_of_cname hr).mp h
      obtain ⟨hall, hget⟩ := ih hrest
      refine ⟨List.forall_mem_cons.mpr ⟨fun _ => ⟨target, htarget⟩, hall⟩, fun owner t => ?_⟩
      rw [hget, link_cons, Table.get?_put, ← or_assoc]
      refine or_congr_left ?_
      split_ifs with howner
      · subst howner
        constructor
        · intro heq
          obtain rfl := Option.some.inj heq
          exact .inr ⟨hr, rfl, htarget⟩
        · rintro (hold | ⟨_, _, ht⟩)
          · rw [hknown t hold]
          · rw [target_unique ht htarget rfl]
      · exact ⟨.inl, fun hor => hor.resolve_right fun h => howner h.2.1.symm⟩
    · rw [addTargets_of_not hr] at h
      obtain ⟨hall, hget⟩ := ih h
      refine ⟨List.forall_mem_cons.mpr ⟨fun hc => absurd hc hr, hall⟩, fun owner t => ?_⟩
      rw [hget, link_cons]
      exact or_congr_right ⟨.inr, fun hor => hor.resolve_left fun h => hr h.1⟩

/-- Links that agree are all put. -/
theorem exists_addTargets (htarget : ∀ r ∈ rs, IsCname r → ∃ target, Target m MAX_POINTER_JUMPS r target)
    (hunique : ∀ owner target target',
      targets.get? owner = some target ∨ Link m MAX_POINTER_JUMPS rs owner target →
      targets.get? owner = some target' ∨ Link m MAX_POINTER_JUMPS rs owner target' →
      target = target') :
    ∃ targets', addTargets m targets rs = .ok targets' := by
  induction rs generalizing targets with
  | nil => exact ⟨targets, rfl⟩
  | cons r rs ih =>
    obtain ⟨hhead, htail⟩ := List.forall_mem_cons.mp htarget
    by_cases hr : IsCname r
    · obtain ⟨target, ht⟩ := hhead hr
      have hlink : Link m MAX_POINTER_JUMPS (r :: rs) r.owner target := link_cons.mpr (.inl ⟨hr, rfl, ht⟩)
      have hweak : ∀ owner t, (targets.put r.owner target).get? owner = some t ∨
          Link m MAX_POINTER_JUMPS rs owner t →
          targets.get? owner = some t ∨ Link m MAX_POINTER_JUMPS (r :: rs) owner t := by
        rintro owner t (hget | h)
        · rw [Table.get?_put] at hget
          split_ifs at hget with howner
          · obtain rfl := Option.some.inj hget
            rw [howner]
            exact .inr hlink
          · exact .inl hget
        · exact .inr (link_cons.mpr (.inr h))
      obtain ⟨targets', hok⟩ := ih htail fun owner t t' h h' =>
        hunique owner t t' (hweak owner t h) (hweak owner t' h')
      refine ⟨targets', (addTargets_of_cname hr).mpr ⟨target, ht, fun known hget => ?_, hok⟩⟩
      exact hunique r.owner known target (.inl hget) (.inr hlink)
    · rw [addTargets_of_not hr]
      refine ih htail fun owner t t' h h' => hunique owner t t' ?_ ?_
      · exact h.imp_right fun h => link_cons.mpr (.inr h)
      · exact h'.imp_right fun h => link_cons.mpr (.inr h)

theorem tame_addTargets : Tame (addTargets m targets rs) := by
  induction rs generalizing targets with
  | nil => exact tame_ok _
  | cons r rs ih =>
    unfold addTargets
    split_ifs with hno
    · exact ih
    · refine (tame_readName _).bind fun ⟨target, next⟩ _ => ?_
      dsimp only
      split_ifs
      · exact tame_malformed
      · exact tame_malformed
      · exact ih

end Targets

/-! ## The walk -/

section Walk

variable {limit : ℕ} {answers : List Record} {asked : List Text}

variable (m limit answers asked) in
/-- The walk has taken `n` links, is at `current` and has met `owners`, each once. -/
structure Walked (n : ℕ) (current : List Text) (owners : List (List Text)) : Prop where
  here : Reach m limit answers asked n current
  met : ∀ name, name ∈ owners ↔ ∃ k ≤ n, Reach m limit answers asked k name
  fresh : ∀ {j k : ℕ} {name : List Text}, k < j → j ≤ n → Reach m limit answers asked j name →
    ¬ Reach m limit answers asked k name

theorem walked_start : Walked m limit answers asked 0 asked [asked] where
  here := .asked
  met name := by
    rw [List.mem_singleton]
    constructor
    · rintro rfl
      exact ⟨0, le_rfl, .asked⟩
    · rintro ⟨k, hk, h⟩
      obtain rfl := Nat.le_zero.mp hk
      cases h
      rfl
  fresh hlt hle := by omega

variable {n : ℕ} {current target : List Text} {owners : List (List Text)}

/-- One more link, to a name not met. -/
theorem Walked.link (hl : Linked m limit answers) (h : Walked m limit answers asked n current owners)
    (hlink : Link m limit answers current target) (hnew : target ∉ owners) :
    Walked m limit answers asked (n + 1) target (owners ++ [target]) where
  here := .link h.here hlink
  met name := by
    rw [List.mem_append, List.mem_singleton, h.met]
    constructor
    · rintro (⟨k, hk, hreach⟩ | rfl)
      · exact ⟨k, by omega, hreach⟩
      · exact ⟨n + 1, le_rfl, .link h.here hlink⟩
    · rintro ⟨k, hk, hreach⟩
      rcases Nat.le_succ_iff.mp hk with hle | rfl
      · exact .inl ⟨k, hle, hreach⟩
      · exact .inr (hreach.unique hl (.link h.here hlink))
  fresh {j k name} hlt hle hj hk := by
    rcases Nat.le_succ_iff.mp hle with hle | rfl
    · exact h.fresh hlt hle hj hk
    · obtain rfl := hj.unique hl (.link h.here hlink)
      exact hnew ((h.met _).mpr ⟨k, by omega, hk⟩)

/-- Where a link leads back to a name met, no other name is reached. -/
theorem Walked.closed (hl : Linked m limit answers) (h : Walked m limit answers asked n current owners)
    (hlink : Link m limit answers current target) (hmet : target ∈ owners) {k : ℕ} {name : List Text}
    (hreach : Reach m limit answers asked k name) : name ∈ owners := by
  induction hreach with
  | asked => exact (h.met _).mpr ⟨0, Nat.zero_le _, .asked⟩
  | @link k b t _ hb ih =>
    obtain ⟨j, hj, hreach⟩ := (h.met b).mp ih
    rcases hj.lt_or_eq with hlt | rfl
    · exact (h.met t).mpr ⟨j + 1, hlt, .link hreach hb⟩
    · obtain rfl := hreach.unique hl h.here
      rwa [hl.unique hb hlink]

/-- **The walk meets the names that the links lead to, or there are too many.** -/
theorem walk_spec (hl : Linked m limit answers) {targets : Targets}
    (hget : ∀ owner target, targets.get? owner = some target ↔ Link m limit answers owner target)
    {left links : ℕ} (h : Walked m limit answers asked n current owners) (hlinks : n + left = links) :
    (ChainWithin m limit links answers asked ∧ ∃ met, walk targets left current owners = .ok met ∧
      ∀ name, name ∈ met ↔ ∃ k ≤ links, Reach m limit answers asked k name) ∨
    (¬ ChainWithin m limit links answers asked ∧
      walk targets left current owners = .error .malformed) := by
  induction left generalizing n current owners with
  | zero =>
    unfold walk
    cases htarget : targets.get? current with
    | none =>
      have hend : ∀ target, ¬ Link m limit answers current target := fun target hlink => by
        rw [(hget current target).mpr hlink] at htarget
        cases htarget
      refine .inl ⟨⟨n, by omega, current, h.here, .inl hend⟩, owners, rfl, fun name => ?_⟩
      rw [h.met, ← hlinks, Nat.add_zero]
    | some target =>
      refine .inr ⟨?_, rfl⟩
      have hlink := (hget current target).mp htarget
      rintro ⟨j, hj, name, hreach, hend | ⟨k, hk, hback⟩⟩
      · rcases (show j ≤ n by omega).lt_or_eq with hlt | rfl
        · obtain ⟨b, t, hb, hbt⟩ := h.here.at_le hlt
          obtain rfl := hb.unique hl hreach
          exact hend t hbt
        · obtain rfl := hreach.unique hl h.here
          exact hend target hlink
      · exact h.fresh hk (by omega) hreach hback
  | succ left ih =>
    unfold walk
    cases htarget : targets.get? current with
    | none =>
      have hend : ∀ target, ¬ Link m limit answers current target := fun target hlink => by
        rw [(hget current target).mpr hlink] at htarget
        cases htarget
      refine .inl ⟨⟨n, by omega, current, h.here, .inl hend⟩, owners, rfl, fun name => ?_⟩
      rw [h.met]
      constructor
      · rintro ⟨k, hk, hreach⟩
        exact ⟨k, by omega, hreach⟩
      · rintro ⟨k, hk, hreach⟩
        by_cases hle : k ≤ n
        · exact ⟨k, hle, hreach⟩
        · obtain ⟨b, t, hb, hbt⟩ := hreach.at_le (not_le.mp hle)
          obtain rfl := hb.unique hl h.here
          exact absurd hbt (hend t)
    | some target =>
      have hlink := (hget current target).mp htarget
      dsimp only
      split_ifs with hmet
      · obtain ⟨k, hk, hback⟩ := (h.met target).mp hmet
        refine .inl ⟨⟨n + 1, by omega, target, .link h.here hlink, .inr ⟨k, by omega, hback⟩⟩,
          owners, rfl, fun name => ⟨fun hname => ?_, fun ⟨_, _, hreach⟩ => h.closed hl hlink hmet hreach⟩⟩
        obtain ⟨j, hj, hreach⟩ := (h.met name).mp hname
        exact ⟨j, by omega, hreach⟩
      · exact ih (h.link hl hlink hmet) (by omega)

end Walk

/-- **`chainOwners` meets exactly the names that the links lead to.** -/
theorem chainOwners_eq_ok {answers : List Record} {asked : List Text} {owners : List (List Text)} :
    chainOwners m answers asked = .ok owners →
      Linked m MAX_POINTER_JUMPS answers ∧
        ChainWithin m MAX_POINTER_JUMPS MAX_CNAME_LINKS answers asked ∧
        ∀ name, name ∈ owners ↔ ∃ k ≤ MAX_CNAME_LINKS, Reach m MAX_POINTER_JUMPS answers asked k name := by
  intro h
  obtain ⟨targets, hadd, hwalk⟩ := bind_eq_ok.mp h
  obtain ⟨hall, hget⟩ := addTargets_spec hadd
  have hlinks : ∀ owner target, targets.get? owner = some target ↔
      Link m MAX_POINTER_JUMPS answers owner target := fun owner target =>
    (hget owner target).trans ⟨fun h => h.resolve_left fun h => (by cases h), .inr⟩
  have hl : Linked m MAX_POINTER_JUMPS answers :=
    ⟨hall, fun {owner target target'} h h' => by
      rw [← hlinks] at h h'
      rw [h] at h'
      exact Option.some.inj h'⟩
  rcases walk_spec hl hlinks walked_start (Nat.zero_add _) with ⟨hchain, met, hmet, hmem⟩ | ⟨_, hbad⟩
  · rw [hmet] at hwalk
    obtain rfl := Except.ok.inj hwalk
    exact ⟨hl, hchain, hmem⟩
  · rw [hbad] at hwalk
    cases hwalk

theorem exists_chainOwners {answers : List Record} {asked : List Text}
    (hl : Linked m MAX_POINTER_JUMPS answers)
    (hchain : ChainWithin m MAX_POINTER_JUMPS MAX_CNAME_LINKS answers asked) :
    ∃ owners, chainOwners m answers asked = .ok owners := by
  have hempty : ∀ owner target, ¬ (Table.empty : Targets).get? owner = some target :=
    fun owner target h => by cases h
  obtain ⟨targets, hadd⟩ := @exists_addTargets m Table.empty answers hl.target
    fun owner target target' h h' =>
      hl.unique (h.resolve_left (hempty owner target)) (h'.resolve_left (hempty owner target'))
  obtain ⟨_, hget⟩ := addTargets_spec hadd
  have hlinks : ∀ owner target, targets.get? owner = some target ↔
      Link m MAX_POINTER_JUMPS answers owner target := fun owner target =>
    (hget owner target).trans ⟨fun h => h.resolve_left (hempty owner target), .inr⟩
  rcases walk_spec hl hlinks (@walked_start _ _ _ asked) (Nat.zero_add _) with
    ⟨_, met, hmet, _⟩ | ⟨hno, _⟩
  · exact ⟨met, bind_eq_ok.mpr ⟨targets, hadd, hmet⟩⟩
  · exact absurd hchain hno

theorem tame_walk {targets : Targets} {left : ℕ} {current : List Text} {owners : List (List Text)} :
    Tame (walk targets left current owners) := by
  induction left generalizing current owners with
  | zero =>
    unfold walk
    cases targets.get? current with
    | none => exact tame_ok _
    | some _ => exact tame_malformed
  | succ left ih =>
    unfold walk
    cases targets.get? current with
    | none => exact tame_ok _
    | some target =>
      dsimp only
      split_ifs
      · exact tame_ok _
      · exact ih

theorem tame_chainOwners (answers : List Record) (asked : List Text) :
    Tame (chainOwners m answers asked) :=
  tame_addTargets.bind fun _ _ => tame_walk

/-! ## TXT records -/

/-- The RDATA of every record lies inside the message. -/
def Inside (m : Bytes) (rs : List Record) : Prop :=
  ∀ r ∈ rs, r.rdataStart ≤ r.rdataEnd ∧ r.rdataEnd ≤ m.length

/-- A TXT record that is kept. -/
def kept (owners : List (List Text)) (r : Record) : Bool :=
  decide (r.type = TYPE_TXT ∧ r.rrClass = CLASS_IN ∧ r.owner ∈ owners)

theorem kept_iff {owners : List (List Text)} {r : Record} :
    kept owners r = true ↔ r.type = TYPE_TXT ∧ r.rrClass = CLASS_IN ∧ r.owner ∈ owners :=
  decide_eq_true_iff

/-- **The loop over the TXT records reads them all and keeps those of the owners.** -/
theorem collect_eq_ok {owners : List (List Text)} {rs : List Record} (hin : Inside m rs)
    {records : List (List Text)} :
    collect m owners rs = .ok records ↔
      (∀ r ∈ rs, r.type = TYPE_TXT → ∃ strings, TxtData m r strings) ∧
        List.Forall₂ (TxtData m) (rs.filter (kept owners)) records := by
  induction rs generalizing records with
  | nil =>
    constructor
    · intro h
      obtain rfl := Except.ok.inj h
      exact ⟨fun _ h => absurd h List.not_mem_nil, .nil⟩
    · rintro ⟨_, h⟩
      cases h
      rfl
  | cons r rs ih =>
    obtain ⟨hr, hrs⟩ := List.forall_mem_cons.mp hin
    by_cases htype : r.type = TYPE_TXT
    · rw [collect, if_neg (fun h => h htype), bind_eq_ok, List.forall_mem_cons]
      constructor
      · rintro ⟨strings, hstrings, h⟩
        obtain ⟨rest, hrest, h⟩ := bind_eq_ok.mp h
        rw [txtStrings_eq_ok hr] at hstrings
        obtain ⟨hall, hfor⟩ := (ih hrs).mp hrest
        refine ⟨⟨fun _ => ⟨strings, hstrings⟩, hall⟩, ?_⟩
        split_ifs at h with hkept
        · obtain rfl := Except.ok.inj h
          rw [List.filter_cons_of_pos (kept_iff.mpr ⟨htype, hkept⟩)]
          exact .cons hstrings hfor
        · obtain rfl := Except.ok.inj h
          rwa [List.filter_cons_of_neg fun hk => hkept (kept_iff.mp hk).2]
      · rintro ⟨⟨htxt, hall⟩, hfor⟩
        by_cases hkept : r.rrClass = CLASS_IN ∧ r.owner ∈ owners
        · rw [List.filter_cons_of_pos (kept_iff.mpr ⟨htype, hkept⟩)] at hfor
          cases hfor with
          | @cons _ strings _ rest hstrings hfor =>
            refine ⟨strings, (txtStrings_eq_ok hr).mpr hstrings, ?_⟩
            refine bind_eq_ok.mpr ⟨rest, (ih hrs).mpr ⟨hall, hfor⟩, if_pos hkept⟩
        · rw [List.filter_cons_of_neg fun hk => hkept (kept_iff.mp hk).2] at hfor
          obtain ⟨strings, hstrings⟩ := htxt htype
          refine ⟨strings, (txtStrings_eq_ok hr).mpr hstrings, ?_⟩
          exact bind_eq_ok.mpr ⟨records, (ih hrs).mpr ⟨hall, hfor⟩, if_neg hkept⟩
    · rw [collect, if_pos htype, ih hrs, List.forall_mem_cons,
        List.filter_cons_of_neg fun hk => htype (kept_iff.mp hk).1]
      exact and_congr_left' ⟨fun h => ⟨fun ht => absurd ht htype, h⟩, And.right⟩

theorem tame_collect {owners : List (List Text)} {rs : List Record} (hin : Inside m rs) :
    Tame (collect m owners rs) := by
  induction rs with
  | nil => exact tame_ok _
  | cons r rs ih =>
    obtain ⟨hr, hrs⟩ := List.forall_mem_cons.mp hin
    by_cases htype : r.type = TYPE_TXT
    · rw [collect, if_neg (fun h => h htype)]
      refine (tame_txtStrings hr).bind fun strings _ => (ih hrs).bind fun records _ => ?_
      split_ifs
      · exact tame_ok _
      · exact tame_ok _
    · rw [collect, if_pos htype]
      exact ih hrs

theorem inside_of_recordsAt {limit start stop : ℕ} {rs : List Record}
    (h : RecordsAt m limit start rs stop) : Inside m rs := by
  induction h with
  | nil => exact fun _ h => absurd h List.not_mem_nil
  | cons hr _ ih => exact List.forall_mem_cons.mpr ⟨rdata_of_recordAt hr, ih⟩

end BunMail.DnsWire
