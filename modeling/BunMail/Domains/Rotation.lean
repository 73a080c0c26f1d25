import BunMail.Domains.CheckState
import BunMail.Domains.DkimKeys

/-!
# Key rotation

The three steps of `dkim-rotation.service.ts`, each as what its transaction does to the row it has
locked, and the lookup that completing a rotation makes before.
-/

namespace BunMail.Domains

/-- A row of `domains`: its keys, and the state of its checks. -/
structure DomainRow extends DomainCheckState where
  name : Text
  dkimSelector : Text
  dkimPrivateKey : Option Text
  dkimPublicKey : Option Text
  dkimPendingSelector : Option Text := none
  dkimPendingPrivateKey : Option Text := none
  dkimPendingPublicKey : Option Text := none
  dkimPendingCreatedAt : Option Time := none
  dkimPreviousSelector : Option Text := none
  dkimPreviousPublicKey : Option Text := none
  dkimRotatedAt : Option Time := none

/-- `DkimRotationErrorCode`. -/
inductive DkimRotationErrorCode
  | DKIM_ROTATION_PENDING
  | DKIM_NO_PENDING_ROTATION
  | DKIM_PENDING_NOT_PUBLISHED
  | DKIM_PENDING_KEY_UNREADABLE
  deriving DecidableEq

/-- `DkimRotationError`. -/
structure DkimRotationError where
  code : DkimRotationErrorCode
  message : Text
  deriving DecidableEq

/-- `createDomain`: the pair is the active key. -/
def createDomain (name selector : Text) (pair : KeyPair) : DomainRow where
  name
  dkimSelector := selector
  dkimPrivateKey := some pair.privateKey
  dkimPublicKey := some pair.publicKey

/-- The transaction of `startDkimRotation`, with the pair that was generated before it. -/
def startDkimRotation (row : DomainRow) (pair : KeyPair) (now : Time) :
    Except DkimRotationError DomainRow :=
  match row.dkimPendingSelector with
  | some pending => .error ⟨.DKIM_ROTATION_PENDING,
      "A DKIM key rotation is already pending (selector ".toList ++ pending ++
        "): complete or cancel it first.".toList⟩
  | none => .ok
    { row with
      dkimPendingSelector :=
        some (datedDkimSelector now [some row.dkimSelector, row.dkimPreviousSelector])
      dkimPendingPrivateKey := some pair.privateKey
      dkimPendingPublicKey := some pair.publicKey
      dkimPendingCreatedAt := some now }

/-- `noPendingRotation`. -/
def noPendingRotation : DkimRotationError :=
  ⟨.DKIM_NO_PENDING_ROTATION, "No DKIM key rotation is pending for this domain."⟩

/-- The pending key, when its selector and both keys are set. -/
structure PendingKey where
  selector : Text
  publicKey : Text
  privateKey : Text
  deriving DecidableEq

/-- The pending key of a row. -/
def pendingKey (row : DomainRow) : Option PendingKey :=
  row.dkimPendingSelector.bind fun selector => row.dkimPendingPublicKey.bind fun publicKey =>
    row.dkimPendingPrivateKey.map fun privateKey => ⟨selector, publicKey, privateKey⟩

/-- `isEncryptedSecret`. -/
def isEncryptedSecret (value : Text) : Bool :=
  "v1:".toList.isPrefixOf value && (value.splitOn ':').length == 4

/-- `privateKeyReadable`; `decrypts` says whether `decryptSecret` succeeds. -/
def privateKeyReadable (decrypts : Text → Bool) (stored : Text) : Bool :=
  !isEncryptedSecret stored || decrypts stored

/-- What completing a rotation reads before its lookup. -/
def readPending (decrypts : Text → Bool) (row : DomainRow) : Except DkimRotationError PendingKey :=
  match pendingKey row with
  | none => .error noPendingRotation
  | some key =>
    if privateKeyReadable decrypts key.privateKey then .ok key
    else .error ⟨.DKIM_PENDING_KEY_UNREADABLE,
      "The pending private key does not decrypt with DKIM_ENCRYPTION_KEY: ".toList ++
        "cancel the rotation and start a new one.".toList⟩

/-- What `resolveTxt` gives: the strings of each record, or an error with its code. -/
inductive TxtAnswer
  | records (records : List (List Text))
  | error (code : Text)
  deriving DecidableEq

/-- `NO_RECORD_CODES`. -/
def noRecordCodes : List Text := ["ENOTFOUND", "ENODATA"]

/-- `DkimPublishCheck`. -/
structure DkimPublishCheck where
  ok : Bool
  reason : Text
  deriving DecidableEq

/-- `checkDkimKeyPublished`. -/
def checkDkimKeyPublished (domainName selector publicKeyPem : Text) (resolveTxt : Text → TxtAnswer) :
    DkimPublishCheck :=
  let host := dkimRecordHost selector domainName
  let compare (records : List Text) : DkimPublishCheck :=
    if records = [] then ⟨false, "No TXT record at ".toList ++ host ++ " yet".toList⟩
    else if dkimRecordsMatchKey records publicKeyPem then
      ⟨true, "The pending key is published at ".toList ++ host⟩
    else ⟨false, "The TXT record at ".toList ++ host ++
      " does not carry the pending public key: publish the value shown for it".toList⟩
  match resolveTxt host with
  | .records records => compare (records.map List.flatten)
  | .error code =>
    if code ∈ noRecordCodes then compare []
    else ⟨false, "DNS lookup of ".toList ++ host ++ " failed (temporary): try again later".toList⟩

/-- The transaction of `completeDkimRotation`, for the key that was looked up. -/
def completeDkimRotation (row : DomainRow) (key : PendingKey) (now : Time) :
    Except DkimRotationError DomainRow :=
  if row.dkimPendingSelector = none then .error noPendingRotation
  else if row.dkimPendingSelector ≠ some key.selector ∨ row.dkimPendingPublicKey ≠ some key.publicKey
  then .error ⟨.DKIM_PENDING_NOT_PUBLISHED,
    "The pending key changed while its DNS record was checked: complete the rotation again."⟩
  else .ok
    { row with
      dkimSelector := key.selector
      dkimPrivateKey := some key.privateKey
      dkimPublicKey := some key.publicKey
      dkimVerified := true
      dkimPreviousSelector := some row.dkimSelector
      dkimPreviousPublicKey := row.dkimPublicKey
      dkimRotatedAt := some now
      dkimPendingSelector := none
      dkimPendingPrivateKey := none
      dkimPendingPublicKey := none
      dkimPendingCreatedAt := none }

/-- `cancelDkimRotation`. -/
def cancelDkimRotation (row : DomainRow) : Except DkimRotationError DomainRow :=
  if row.dkimPendingSelector = none then .error noPendingRotation
  else .ok
    { row with
      dkimPendingSelector := none
      dkimPendingPrivateKey := none
      dkimPendingPublicKey := none
      dkimPendingCreatedAt := none }

/-! ## What the steps do -/

variable {row row' : DomainRow} {key : PendingKey} {pair : KeyPair} {now : Time}

theorem checkDkimKeyPublished_ok {domainName selector publicKeyPem : Text}
    {resolveTxt : Text → TxtAnswer}
    (h : (checkDkimKeyPublished domainName selector publicKeyPem resolveTxt).ok = true) :
    ∃ records, resolveTxt (dkimRecordHost selector domainName) = .records records ∧
      dkimRecordsMatchKey (records.map List.flatten) publicKeyPem = true := by
  unfold checkDkimKeyPublished at h
  dsimp only at h
  cases hanswer : resolveTxt (dkimRecordHost selector domainName) with
  | records records =>
    rw [hanswer] at h
    dsimp only at h
    split_ifs at h with hnil hmatch
    exact ⟨records, rfl, hmatch⟩
  | error code =>
    rw [hanswer] at h
    dsimp only at h
    split_ifs at h with hcode hnil
    exact absurd rfl hnil

theorem pendingKey_eq_some (h : pendingKey row = some key) :
    row.dkimPendingSelector = some key.selector ∧ row.dkimPendingPublicKey = some key.publicKey ∧
      row.dkimPendingPrivateKey = some key.privateKey := by
  unfold pendingKey at h
  simp only [Option.bind_eq_some_iff, Option.map_eq_some_iff] at h
  obtain ⟨selector, hs, publicKey, hpub, privateKey, hpriv, rfl⟩ := h
  exact ⟨hs, hpub, hpriv⟩

theorem startDkimRotation_ok (h : startDkimRotation row pair now = .ok row') :
    row.dkimPendingSelector = none ∧ row' =
      { row with
        dkimPendingSelector :=
          some (datedDkimSelector now [some row.dkimSelector, row.dkimPreviousSelector])
        dkimPendingPrivateKey := some pair.privateKey
        dkimPendingPublicKey := some pair.publicKey
        dkimPendingCreatedAt := some now } := by
  unfold startDkimRotation at h
  cases hp : row.dkimPendingSelector with
  | some pending =>
    rw [hp] at h
    cases h
  | none =>
    rw [hp] at h
    cases h
    exact ⟨rfl, rfl⟩

theorem readPending_ok {decrypts : Text → Bool} (h : readPending decrypts row = .ok key) :
    pendingKey row = some key := by
  unfold readPending at h
  cases hp : pendingKey row with
  | none =>
    rw [hp] at h
    cases h
  | some k =>
    rw [hp] at h
    dsimp only at h
    split_ifs at h
    cases h
    rfl

theorem completeDkimRotation_ok (h : completeDkimRotation row key now = .ok row') :
    row.dkimPendingSelector = some key.selector ∧ row.dkimPendingPublicKey = some key.publicKey ∧
      row' =
        { row with
          dkimSelector := key.selector
          dkimPrivateKey := some key.privateKey
          dkimPublicKey := some key.publicKey
          dkimVerified := true
          dkimPreviousSelector := some row.dkimSelector
          dkimPreviousPublicKey := row.dkimPublicKey
          dkimRotatedAt := some now
          dkimPendingSelector := none
          dkimPendingPrivateKey := none
          dkimPendingPublicKey := none
          dkimPendingCreatedAt := none } := by
  unfold completeDkimRotation at h
  split_ifs at h with hnone hchanged
  push Not at hchanged
  cases h
  exact ⟨hchanged.1, hchanged.2, rfl⟩

theorem cancelDkimRotation_ok (h : cancelDkimRotation row = .ok row') :
    row' =
      { row with
        dkimPendingSelector := none
        dkimPendingPrivateKey := none
        dkimPendingPublicKey := none
        dkimPendingCreatedAt := none } := by
  unfold cancelDkimRotation at h
  split_ifs at h
  cases h
  rfl

end BunMail.Domains
