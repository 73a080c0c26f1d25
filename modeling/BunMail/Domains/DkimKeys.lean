import BunMail.Lib.Calendar

/-!
# DKIM keys

`dkim-keys.ts`: the selector of a rotation, the record of a key, and whether records publish it.
-/

namespace BunMail.Domains

/-- A generated pair, its private key as it is stored. -/
structure KeyPair where
  privateKey : Text
  publicKey : Text
  deriving DecidableEq

/-- `datedDkimSelector`: the first of the day's selectors that is not taken. -/
def datedDkimSelector (now : Time) (taken : List (Option Text)) : Text :=
  let base : Text := ['b', 'm'] ++ (Calendar.isoDate now).filter (· ≠ '-')
  let used := taken.filterMap id
  let candidates := base :: (List.range' 2 used.length).map fun n => base ++ '-' :: Text.decimal n
  (candidates.find? fun candidate => !used.contains candidate).getD base

/-- `s.replaceAll(pattern, "")`. -/
def removeAll (pattern : Text) (s : Text) : Text :=
  go 0 s
where
  /-- After `skip` more characters of a match. -/
  go : ℕ → Text → Text
    | _, [] => []
    | skip + 1, _ :: s => go skip s
    | 0, c :: s => if pattern.isPrefixOf (c :: s) then go (pattern.length - 1) s else c :: go 0 s

/-- `s.replace(/\s/g, "")`. -/
def removeSpace (s : Text) : Text := s.filter fun c => !Text.isSpace c

/-- `publicKeyBase64`. -/
def publicKeyBase64 (pem : Text) : Text :=
  removeSpace (removeAll "-----END PUBLIC KEY-----" (removeAll "-----BEGIN PUBLIC KEY-----" pem))

/-- `dkimRecordValue`. -/
def dkimRecordValue (publicKeyPem : Text) : Text :=
  "v=DKIM1; k=rsa; p=".toList ++ publicKeyBase64 publicKeyPem

/-- `dkimRecordHost`. -/
def dkimRecordHost (selector domainName : Text) : Text :=
  selector ++ "._domainkey.".toList ++ domainName

/-- `s.includes(part)`. -/
def includes (s part : Text) : Bool := s.tails.any fun t => part.isPrefixOf t

/-- `dkimRecordsMatchKey`: one record, or all of them joined. -/
def dkimRecordsMatchKey (records : List Text) (publicKeyPem : Text) : Bool :=
  let expectedKey := publicKeyBase64 publicKeyPem
  (records ++ [records.flatten]).any fun record =>
    let cleaned := removeSpace record
    includes cleaned "v=DKIM1" && includes cleaned ("p=".toList ++ expectedKey)

/-! ## Selectors -/

/-- Of more candidates than are taken one is free. -/
theorem exists_notMem_of_length {α : Type} [DecidableEq α] {used candidates : List α}
    (hn : candidates.Nodup) (hlt : used.length < candidates.length) : ∃ c ∈ candidates, c ∉ used := by
  by_contra hall
  push Not at hall
  have hle := (List.subperm_of_subset hn hall).length_le
  omega

/-- **A fresh selector.** It is none of those taken. -/
theorem datedDkimSelector_notMem (now : Time) (taken : List (Option Text)) :
    some (datedDkimSelector now taken) ∉ taken := by
  unfold datedDkimSelector
  dsimp only
  set base : Text := ['b', 'm'] ++ (Calendar.isoDate now).filter (· ≠ '-')
  set used := taken.filterMap id
  set candidates := base :: (List.range' 2 used.length).map fun n => base ++ '-' :: Text.decimal n
  have hn : candidates.Nodup := by
    refine List.nodup_cons.mpr ⟨fun hmem => ?_, List.Nodup.map (fun m n h => ?_) List.nodup_range'⟩
    · obtain ⟨n, -, hn⟩ := List.mem_map.mp hmem
      have := congrArg List.length hn
      simp at this
    · have := List.append_cancel_left h
      exact Text.decimal_injective (List.cons.inj this).2
  obtain ⟨c, hc, hfree⟩ := @exists_notMem_of_length _ _ used candidates hn (by simp [candidates])
  cases hfind : candidates.find? fun candidate => !used.contains candidate with
  | none =>
    have := List.find?_eq_none.mp hfind c hc
    simp [hfree] at this
  | some candidate =>
    have hused := List.find?_some hfind
    intro hmem
    have : candidate ∈ used := List.mem_filterMap.mpr ⟨some candidate, hmem, rfl⟩
    simp [this] at hused

end BunMail.Domains
