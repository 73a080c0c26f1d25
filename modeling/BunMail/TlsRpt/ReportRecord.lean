import BunMail.Utils.RecipientLists

/-!
# TLS-RPT records

`tls-rpt-record.ts`: the reporting addresses of a domain's `_smtp._tls` TXT records.  The URL parser
and the percent decoder are parameters, which answer `none` where they throw.
-/

namespace BunMail.TlsRpt

open Recipients

/-- What is read of a `URL`. -/
structure Url where
  protocol : Text
  hostname : Text
  username : Text
  password : Text
  hash : Text
  href : Text
  origin : Text

/-- `TlsRptRua`: where a report goes, its normalised form and what its daily cap counts it by. -/
inductive Rua
  | mailto (uri address key destination : Text)
  | https (uri url key destination : Text)
  deriving DecidableEq

namespace Rua

/-- The normalised form, which tells addresses apart. -/
def key : Rua → Text
  | mailto _ _ key _ => key
  | https _ _ key _ => key

/-- The address a suppression may name. -/
def address? : Rua → Option Text
  | mailto _ address _ _ => some address
  | https .. => none

end Rua

/-- `MAX_RUA_PER_RECORD`. -/
def MAX_RUA_PER_RECORD : ℕ := 5

/-- `MAX_RUA_LENGTH`. -/
def MAX_RUA_LENGTH : ℕ := 2048

/-- `UNSAFE_ADDRESS_RE`, on one character. -/
def unsafeChar (c : Char) : Bool :=
  c ∈ ['(', ')', '[', ']', '\\', ';', ':', ','] || !(decide (0x20 ≤ c.toNat) && decide (c.toNat ≤ 0x7e))

/-- `VERSION_FIELD`. -/
def VERSION_FIELD : Text := "v=TLSRPTv1"

/-- `NO_RECORDS`. -/
def NO_RECORDS : List Text := ["ENOTFOUND", "ENODATA"]

/-- `TlsRptLookup`. -/
inductive Lookup
  | record (rua : List Rua)
  | none
  | error (code : Text)
  deriving DecidableEq

section Parse

variable (toLowerCase : Text → Text) (decodeURIComponent : Text → Option Text)
  (parseUrl : Text → Option Url)

/-- The `mailto:` branch of `parseRua`. -/
def parseMailto (uri rest : Text) : Option Rua := do
  if rest.contains '?' || rest.contains '#' then failure
  let decoded ← decodeURIComponent rest
  if decoded.any unsafeChar then failure
  let name := (decoded.rdropWhile (· ≠ '@')).dropLast
  if name = [] then failure
  let address := name ++ '@' :: toLowerCase (Text.afterLast '@' decoded)
  if isEmailAddress address then
    let destination := toLowerCase address
    some (.mailto uri address ("mailto:" ++ destination) destination)
  else failure

/-- The `https:` branch of `parseRua`. -/
def parseHttps (uri : Text) : Option Rua := do
  let url ← parseUrl uri
  if url.protocol ≠ "https:" ∨ url.hostname = [] then failure
  if url.username ≠ [] ∨ url.password ≠ [] ∨ url.hash ≠ [] then failure
  some (.https uri url.href url.href url.origin)

/-- `parseRua`. -/
def parseRua (raw : Text) : Option Rua :=
  let uri := Text.trim raw
  if uri = [] ∨ MAX_RUA_LENGTH < Text.utf16Length uri then none
  else
    let colon := uri.idxOf ':'
    if colon = 0 ∨ colon = uri.length then none
    else
      let scheme := toLowerCase (uri.take colon)
      if scheme = "mailto" then parseMailto toLowerCase decodeURIComponent uri (uri.drop (colon + 1))
      else if scheme = "https" then parseHttps parseUrl uri
      else none

/-- The loop over the URIs of `rua`: the first of each normalised form, until there are enough. -/
def collectRua : List Rua → List Text → List Rua
  | found, [] => found
  | found, raw :: raws =>
    match parseRua toLowerCase decodeURIComponent parseUrl raw with
    | none => collectRua found raws
    | some parsed =>
      if found.any fun r => r.key = parsed.key then collectRua found raws
      else if (found ++ [parsed]).length = MAX_RUA_PER_RECORD then found ++ [parsed]
      else collectRua (found ++ [parsed]) raws

/-- The loop over the fields after the version: the value of the one `rua` field. -/
def ruaField : Option Text → List Text → Option Text
  | rua, [] => rua
  | rua, field :: fields =>
    if field = [] then if fields = [] then rua else none
    else
      let eq := field.idxOf '='
      if eq = 0 ∨ eq = field.length then none
      else if Text.trim (field.take eq) ≠ "rua" then ruaField rua fields
      else if rua.isSome then none
      else ruaField (some (field.drop (eq + 1))) fields

/-- `parseTlsRptTxt`. -/
def parseTlsRptTxt (records : List (List Text)) : Option (List Rua) :=
  let candidates := (records.map List.flatten).filter fun text =>
    Text.trim ((text.splitOn ';').headD []) = VERSION_FIELD
  match candidates with
  | [candidate] => do
    let rua ← ruaField none (((candidate.splitOn ';').map Text.trim).tail)
    let found := collectRua toLowerCase decodeURIComponent parseUrl [] (rua.splitOn ',')
    if found = [] then failure
    some found
  | _ => none

/-- `lookupTlsRptRecord`, on what the TXT lookup answers: its records, or a code. -/
def lookupTlsRptRecord : Except Text (List (List Text)) → Lookup
  | .ok records =>
    (parseTlsRptTxt toLowerCase decodeURIComponent parseUrl records).elim .none .record
  | .error code => if code ∈ NO_RECORDS then .none else .error code

/-! ## What a record holds -/

variable {toLowerCase decodeURIComponent parseUrl}

theorem nodup_collectRua {raws : List Text} {found : List Rua} (h : (found.map Rua.key).Nodup) :
    ((collectRua toLowerCase decodeURIComponent parseUrl found raws).map Rua.key).Nodup := by
  induction raws generalizing found with
  | nil => exact h
  | cons raw raws ih =>
    unfold collectRua
    cases parseRua toLowerCase decodeURIComponent parseUrl raw with
    | none => exact ih h
    | some parsed =>
      dsimp only
      by_cases hdup : (found.any fun r => r.key = parsed.key) = true
      · rw [if_pos hdup]
        exact ih h
      · have hnew : ((found ++ [parsed]).map Rua.key).Nodup := by
          rw [List.map_append, List.map_singleton, ← List.concat_eq_append]
          refine List.Nodup.concat (fun hmem => hdup ?_) h
          obtain ⟨r, hr, hkey⟩ := List.mem_map.mp hmem
          exact List.any_eq_true.mpr ⟨r, hr, decide_eq_true hkey⟩
        rw [if_neg hdup]
        split_ifs
        · exact hnew
        · exact ih hnew

/-- No two addresses of a record have the same normalised form. -/
theorem nodup_lookup {answer : Except Text (List (List Text))} {rua : List Rua}
    (h : lookupTlsRptRecord toLowerCase decodeURIComponent parseUrl answer = .record rua) :
    (rua.map Rua.key).Nodup := by
  unfold lookupTlsRptRecord at h
  cases answer with
  | error code =>
    dsimp only at h
    split_ifs at h
  | ok records =>
    dsimp only at h
    cases hparse : parseTlsRptTxt toLowerCase decodeURIComponent parseUrl records with
    | none =>
      rw [hparse] at h
      cases h
    | some found =>
      rw [hparse] at h
      obtain rfl : found = rua := by simpa using h
      unfold parseTlsRptTxt at hparse
      dsimp only at hparse
      split at hparse
      · obtain ⟨text, _, hfound⟩ := Option.bind_eq_some_iff.mp hparse
        split_ifs at hfound
        · cases hfound
        · obtain rfl := Option.some.inj hfound
          exact nodup_collectRua List.nodup_nil
      · cases hparse

end Parse

end BunMail.TlsRpt
