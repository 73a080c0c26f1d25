import BunMail.Lib.Fields

/-!
# Tokens that name an email

A token carries the hex part of an email id and a truncated HMAC over a text that names the email and
a recipient.  The HMAC under the configured key is a parameter.  Nothing is stored for a token: who
checks one computes the HMAC again from the email's row.
-/

namespace BunMail.EmailTokens

open Text

/-- HMAC-SHA256 under a key. -/
abbrev Hmac := Text → Vector UInt8 32

/-- `EMAIL_ID_RE`: the hex part of an id `msg_` and 24 digits. -/
def EMAIL_ID_RE (emailId : Text) : Option Text :=
  if emailId.take 4 = "msg_" ∧ (emailId.drop 4).length = 24 ∧ (emailId.drop 4).all isHexDigit then
    some (emailId.drop 4)
  else none

/-- The class `[0-9a-f]` repeated `n` times. -/
def isHex (n : ℕ) (s : Text) : Bool := s.length = n && s.all isHexDigit

/-- The first `n` bytes of the HMAC. -/
def truncated (hmac : Hmac) (n : ℕ) (input : Text) : List UInt8 := (hmac input).toList.take n

theorem length_truncated {hmac : Hmac} {n : ℕ} {input : Text} (h : n ≤ 32) :
    (truncated hmac n input).length = n := by
  unfold truncated
  rw [List.length_take, Vector.length_toList]
  omega

theorem isHex_iff {n : ℕ} {s : Text} :
    isHex n s = true ↔ s.length = n ∧ ∀ c ∈ s, isHexDigit c = true := by
  unfold isHex
  rw [Bool.and_eq_true, decide_eq_true_eq, List.all_eq_true]

theorem EMAIL_ID_RE_eq_some {emailId hex : Text} :
    EMAIL_ID_RE emailId = some hex ↔ emailId = "msg_" ++ hex ∧ isHex 24 hex = true := by
  unfold EMAIL_ID_RE
  rw [isHex_iff]
  constructor
  · intro h
    split_ifs at h with hid
    obtain ⟨hhead, hlen, hall⟩ := hid
    rw [← Option.some.inj h]
    refine ⟨?_, hlen, List.all_eq_true.mp hall⟩
    rw [← hhead, List.take_append_drop]
  · rintro ⟨rfl, hlen, hall⟩
    exact if_pos ⟨rfl, hlen, List.all_eq_true.mpr hall⟩

theorem isHex_toHex {hmac : Hmac} {n : ℕ} {input : Text} (h : n ≤ 32) :
    isHex (2 * n) (toHex (truncated hmac n input)) = true := by
  rw [isHex_iff, length_toHex, length_truncated h]
  exact ⟨rfl, all_toHex _⟩

/-- A character that is no hex digit is in no hex. -/
theorem notMem_of_isHex {n : ℕ} {s : Text} {c : Char} (h : isHex n s = true)
    (hc : isHexDigit c = false) : c ∉ s := by
  intro hmem
  rw [(isHex_iff.mp h).2 c hmem] at hc
  cases hc

/-- Text of characters that stay as they are when lowercased. -/
theorem lower_of_ascii {toLowerCase : Text → Text} (hlow : IsLowerCase toLowerCase) {s : Text}
    (h : ∀ c ∈ s, c.toNat < 128 ∧ c.toLower = c) : toLowerCase s = s := by
  rw [(hlow.lowers s).eq_map_toLower fun c hc => (h c hc).1]
  exact (List.map_congr_left fun c hc => (h c hc).2).trans (List.map_id s)

theorem ascii_of_isHex {n : ℕ} {s : Text} (h : isHex n s = true) :
    ∀ c ∈ s, c.toNat < 128 ∧ c.toLower = c := by
  intro c hc
  have hd := (isHex_iff.mp h).2 c hc
  have hn := isHexDigit_toNat hd
  exact ⟨by omega, toLower_of_isHexDigit hd⟩

/-- **A presented MAC that is known, and no collision**: the subject it verifies for is one of those
it was made for. -/
theorem mem_of_verified {σ ι μ : Type*} {input : σ → ι} {mac : ι → μ} {minted subjects : Set σ}
    (hinput : Set.InjOn input subjects) (hmac : Set.InjOn mac (input '' subjects))
    (hminted : minted ⊆ subjects) {s : σ} (hs : s ∈ subjects) {presented : μ}
    (hknown : ∃ t ∈ minted, mac (input t) = presented) (h : mac (input s) = presented) :
    s ∈ minted := by
  obtain ⟨t, ht, heq⟩ := hknown
  have hin : input s = input t :=
    hmac (Set.mem_image_of_mem _ hs) (Set.mem_image_of_mem _ (hminted ht)) (h.trans heq.symm)
  rw [hinput hs (hminted ht) hin]
  exact ht

end BunMail.EmailTokens
