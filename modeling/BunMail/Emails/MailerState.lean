import BunMail.Emails.Schema
import BunMail.Utils.Recipients

/-!
# The state an attempt starts with

A first attempt files the parsed recipients under their domains.  A later attempt takes the
stored state, gives entries from before the domain column their domain (`withDomains`) and, with
signed return paths, splits pending entries into one for each recipient (`splitPerRecipient`).
Both passes rebuild the record by assignment under new keys, `key|domain` and `key#index`, without
looking whether the key is taken.
-/

namespace BunMail.Emails

open Recipients

section State

variable (toLowerCase : Text → Text)

/-- The state of a first attempt: one pending entry for each recipient domain. -/
def buildInitialState (to_ : Text) (cc bcc : Option Text) : DeliveryState :=
  Table.ofEntries ((groupByDomain (parseRecipients toLowerCase to_ cc bcc)).rows.map
    fun (domain, rcpts) =>
      (domain,
        { status := .retry, recipients := rcpts.map Recipient.address, attempts := 0,
          domain := some domain }))

/-- `key.startsWith("<dns:")`: an entry without a route, from before the domain column. -/
def isDnsKey (key : Text) : Bool := "<dns:".toList.isPrefixOf key

/-- What `withDomains` assigns for one entry. -/
def domainPieces : Text × DeliveryGroup → List (Text × DeliveryGroup)
  | (key, group) =>
    if group.status ≠ .retry ∨ group.domain ≠ none ∨ isDnsKey key ∨ group.recipients = [] then
      [(key, group)]
    else
      let byDomain := Table.groupBy (domainOf toLowerCase) group.recipients
      let mxHost := group.mxHost.getD key
      if byDomain.rows.length = 1 then
        [(key,
          { group with
            domain := some (domainOf toLowerCase (group.recipients.headD []))
            mxHost := some mxHost })]
      else
        byDomain.rows.map fun (domain, recipients) =>
          (key ++ '|' :: domain,
            { group with recipients := recipients, domain := some domain, mxHost := some mxHost })

/-- Gives every pending entry from before the domain column its recipient domain. -/
def withDomains (state : DeliveryState) : DeliveryState :=
  Table.ofEntries (state.rows.flatMap (domainPieces toLowerCase))

/-- A recipient's return-path index and address; no address when none could be minted. -/
structure RecipientReturnPath where
  index : ℕ
  address : Option Text
  deriving DecidableEq

/-- Return paths of an email, by lowercased recipient. -/
abbrev ReturnPaths := Table (Prod.fst : Text × RecipientReturnPath → Text)

/-- The return path of every recipient, in recipient order.  `mintReturnPath` signs the email id,
the index and the recipient for the sender's domain. -/
def returnPathsFor (mintReturnPath : Text → ℕ → Text → Text → Option Text)
    (emailId from_ to_ : Text) (cc bcc : Option Text) : ReturnPaths :=
  let senderDomain := Text.afterLast '@' from_
  Table.ofEntries ((recipientOrder toLowerCase to_ cc bcc).zipIdx.map fun (recipient, index) =>
    (recipient, ⟨index, mintReturnPath emailId index recipient senderDomain⟩))

/-- The key of one recipient of a split entry. -/
def splitKey (returnPaths : ReturnPaths) (key recipient : Text) (position : ℕ) : Text :=
  match (returnPaths.get? (toLowerCase recipient)).map RecipientReturnPath.index with
  | none => key ++ '#' :: 'u' :: Text.decimal position
  | some index => key ++ '#' :: Text.decimal index

/-- What `splitPerRecipient` assigns for one entry. -/
def recipientPieces (returnPaths : ReturnPaths) :
    Text × DeliveryGroup → List (Text × DeliveryGroup)
  | (key, group) =>
    if group.status ≠ .retry ∨ group.recipients.length ≤ 1 ∨ isDnsKey key then [(key, group)]
    else
      group.recipients.zipIdx.map fun (recipient, position) =>
        (splitKey toLowerCase returnPaths key recipient position,
          { group with recipients := [recipient] })

/-- Splits every pending entry of several recipients into one entry for each. -/
def splitPerRecipient (state : DeliveryState) (returnPaths : ReturnPaths) : DeliveryState :=
  Table.ofEntries (state.rows.flatMap (recipientPieces toLowerCase returnPaths))

/-- The envelope sender of a transaction: the signed return path of its only recipient, else the
From address. -/
def envelopeSenderFor (recipients : List Text) (returnPaths : Option ReturnPaths) (from_ : Text) :
    Text :=
  match recipients, returnPaths with
  | [only], some paths => ((paths.get? (toLowerCase only)).bind RecipientReturnPath.address).getD from_
  | _, _ => from_

end State

/-! ## Passes that re-file entries -/

/-- The pass assigns no key twice. -/
def CleanPass (pieces : Text × DeliveryGroup → List (Text × DeliveryGroup)) (state : DeliveryState) :
    Prop :=
  ((state.rows.flatMap pieces).map Prod.fst).Nodup

instance (pieces : Text × DeliveryGroup → List (Text × DeliveryGroup)) (state : DeliveryState) :
    Decidable (CleanPass pieces state) :=
  inferInstanceAs (Decidable ((state.rows.flatMap pieces).map Prod.fst).Nodup)

/-- What an entry becomes in a pass: itself, or pending entries of its recipients, none lost. -/
structure Refiles (e : Text × DeliveryGroup) (pieces : List (Text × DeliveryGroup)) : Prop where
  perm : (pieces.flatMap fun p => p.2.recipients).Perm e.2.recipients
  status : ∀ p ∈ pieces, p.2.status = e.2.status
  kept : e.2.status ≠ .retry → pieces = [e]

section Passes

variable {toLowerCase : Text → Text} {returnPaths : ReturnPaths} {e : Text × DeliveryGroup}

theorem refiles_self : Refiles e [e] where
  perm := by rw [List.flatMap_singleton]
  status p hp := by rw [List.mem_singleton.mp hp]
  kept _ := rfl

theorem refiles_domainPieces : Refiles e (domainPieces toLowerCase e) := by
  obtain ⟨key, group⟩ := e
  unfold domainPieces
  dsimp only
  split_ifs with hkeep hone
  · exact refiles_self
  · have hret : group.status = .retry := by
      by_contra h
      exact hkeep (.inl h)
    refine ⟨?_, ?_, fun h => absurd hret h⟩
    · rw [List.flatMap_singleton]
    · intro p hp
      rw [List.mem_singleton.mp hp]
  · have hret : group.status = .retry := by
      by_contra h
      exact hkeep (.inl h)
    refine ⟨?_, ?_, fun h => absurd hret h⟩
    · rw [List.flatMap_map]
      exact Table.perm_groupBy _ group.recipients
    · intro p hp
      obtain ⟨b, _, rfl⟩ := List.mem_map.mp hp
      rfl

theorem refiles_recipientPieces : Refiles e (recipientPieces toLowerCase returnPaths e) := by
  obtain ⟨key, group⟩ := e
  unfold recipientPieces
  dsimp only
  split_ifs with hkeep
  · exact refiles_self
  · have hret : group.status = .retry := by
      by_contra h
      exact hkeep (.inl h)
    refine ⟨?_, ?_, fun h => absurd hret h⟩
    · have : (group.recipients.zipIdx.map fun x =>
          (splitKey toLowerCase returnPaths key x.1 x.2, { group with recipients := [x.1] })).flatMap
            (fun p => p.2.recipients) = group.recipients := by
        rw [List.flatMap_map]
        change group.recipients.zipIdx.flatMap (fun x => [x.1]) = group.recipients
        rw [← List.map_eq_flatMap]
        exact List.zipIdx_map_fst 0 group.recipients
      rw [this]
    · intro p hp
      obtain ⟨b, _, rfl⟩ := List.mem_map.mp hp
      rfl

variable {pieces : Text × DeliveryGroup → List (Text × DeliveryGroup)} {state : DeliveryState}

theorem rows_of_cleanPass (h : CleanPass pieces state) :
    (Table.ofEntries (state.rows.flatMap pieces)).rows = state.rows.flatMap pieces :=
  Table.ofEntries_rows h

/-- A clean pass keeps every recipient. -/
theorem perm_recipientsOf_pass (hr : ∀ e, Refiles e (pieces e)) (h : CleanPass pieces state) :
    (recipientsOf (Table.ofEntries (state.rows.flatMap pieces))).Perm (recipientsOf state) := by
  unfold recipientsOf
  rw [rows_of_cleanPass h]
  induction state.rows with
  | nil => exact List.Perm.refl _
  | cons e rows ih =>
    rw [List.flatMap_cons, List.flatMap_append, List.flatMap_cons]
    exact (hr e).perm.append ih

/-- An entry after a clean pass comes from one entry before it. -/
theorem exists_of_get?_pass (hr : ∀ e, Refiles e (pieces e)) (h : CleanPass pieces state)
    {key : Text} {group : DeliveryGroup}
    (hg : (Table.ofEntries (state.rows.flatMap pieces)).get? key = some group) :
    ∃ e ∈ state.rows, (key, group) ∈ pieces e ∧ group.status = e.2.status ∧
      ∀ r ∈ group.recipients, r ∈ e.2.recipients := by
  rw [Table.get?_eq_some_iff, rows_of_cleanPass h, List.mem_flatMap] at hg
  obtain ⟨e, he, hp⟩ := hg
  refine ⟨e, he, hp, (hr e).status _ hp, fun r hm => ?_⟩
  exact (hr e).perm.mem_iff.mp (List.mem_flatMap.mpr ⟨(key, group), hp, hm⟩)

/-- A clean pass leaves a settled entry where it is. -/
theorem get?_pass_of_settled (hr : ∀ e, Refiles e (pieces e)) (h : CleanPass pieces state)
    {key : Text} {group : DeliveryGroup} (hg : state.get? key = some group)
    (hs : group.status ≠ .retry) :
    (Table.ofEntries (state.rows.flatMap pieces)).get? key = some group := by
  rw [Table.get?_eq_some_iff] at hg ⊢
  rw [rows_of_cleanPass h, List.mem_flatMap]
  refine ⟨(key, group), hg, ?_⟩
  rw [(hr (key, group)).kept hs]
  exact List.mem_singleton_self _

end Passes

end BunMail.Emails
