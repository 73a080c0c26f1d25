import BunMail.Lib.Fields
import BunMail.Utils.DnsSections

/-!
# The query

The question that `encodeQuery` writes for a hostname with labels is the one a response has to repeat:
the hostname's labels, type TXT, class IN.
-/

namespace BunMail.DnsWire

open Text Dns

/-- The message asks for the TXT records of a name; its sections start at `next`. -/
def Asks (m : Bytes) (limit : ℕ) (labels : List Text) (next : ℕ) : Prop :=
  ∃ stop, Name m limit DNS_HEADER_BYTES labels stop ∧ u16 m stop = some TYPE_TXT ∧
    u16 m (stop + 2) = some CLASS_IN ∧ next = stop + 4

/-! ## Labels -/

/-- A label that goes on the wire. -/
structure WireLabel (label : Text) : Prop where
  pos : 0 < label.length
  short : label.length ≤ 63
  byte : ∀ c ∈ label, c.toNat < 256
  lower : asciiLower label = label

theorem labelChar_iff {c : Char} :
    labelChar c = true ↔ 0x21 ≤ c.toNat ∧ c.toNat ≤ 0x7e ∧ c.toNat ≠ 0x5c := by
  unfold labelChar
  rw [Bool.and_eq_true, Bool.and_eq_true, decide_eq_true_iff, decide_eq_true_iff, decide_eq_true_iff,
    and_assoc]

theorem toLower_lt {c : Char} (h : c.toNat < 128) : c.toLower.toNat < 128 := by
  by_cases hu : c.isUpper
  · have hall : ∀ n : Fin 128, ((Char.ofNat n.val).toLower).toNat < 128 := by decide +kernel
    have hc := hall ⟨c.toNat, h⟩
    rwa [Char.ofNat_toNat] at hc
  · rwa [Char.toLower_eq_of_not_isUpper hu]

theorem wireLabel_asciiLower {label : Text} (hne : label ≠ []) (hlen : utf16Length label ≤ 63)
    (hchar : ∀ c ∈ label, labelChar c = true) : WireLabel (asciiLower label) where
  pos := by
    rw [length_asciiLower]
    exact List.length_pos_iff.mpr hne
  short := by
    have hbmp : ∀ c ∈ label, c.toNat < 0x10000 := fun c hc => by
      have := (labelChar_iff.mp (hchar c hc)).2.1
      omega
    rw [length_asciiLower, ← utf16Length_eq_length hbmp]
    exact hlen
  byte c hc := by
    obtain ⟨d, hd, rfl⟩ := List.mem_map.mp hc
    have hle := (labelChar_iff.mp (hchar d hd)).2.1
    exact (toLower_lt (by omega)).trans (by omega)
  lower := isLowerCase_asciiLower.idempotent label

theorem wireLength_eq (labels : List Text) :
    wireLength labels = (labels.map fun label => label.length + 1).sum + 1 := by
  induction labels with
  | nil => rfl
  | cons label labels ih =>
    unfold wireLength
    rw [ih, List.map_cons, List.sum_cons]
    omega

/-- The labels of a name and the dots between them. -/
theorem sum_splitOn (c : Char) (s : Text) :
    ((s.splitOn c).map fun part => part.length + 1).sum = s.length + 1 := by
  induction s with
  | nil => rfl
  | cons d s ih =>
    rw [List.splitOn_cons_eq_if_modifyHead]
    split_ifs with hd
    · rw [List.map_cons, List.sum_cons, ih, List.length_cons, List.length_nil]
      omega
    · obtain ⟨first, rest, hsplit⟩ := List.exists_cons_of_ne_nil (List.splitOn_ne_nil c s)
      rw [hsplit, List.map_cons, List.sum_cons] at ih
      rw [hsplit, List.modifyHead_cons, List.map_cons, List.sum_cons, List.length_cons, List.length_cons]
      omega

theorem length_le_utf16Length (s : Text) : s.length ≤ utf16Length s := by
  induction s with
  | nil => exact le_rfl
  | cons c s ih =>
    show s.length + 1 ≤ (if c.toNat < 0x10000 then 1 else 2) + utf16Length s
    split_ifs <;> omega

/-- **`nameLabels` gives labels that go on the wire, within the length of a name.** -/
theorem wireLabels_of_nameLabels {hostname : Text} {labels : List Text}
    (h : nameLabels hostname = some labels) :
    (∀ label ∈ labels, WireLabel label) ∧ wireLength labels ≤ 255 := by
  unfold nameLabels at h
  dsimp only at h
  generalize (if hostname.getLast? = some '.' then hostname.dropLast else hostname) = name at h
  split_ifs at h with hbad hall
  rw [not_or, not_lt] at hbad
  obtain rfl := Option.some.inj h
  rw [List.all_eq_true] at hall
  constructor
  · intro label hlabel
    obtain ⟨part, hpart, rfl⟩ := List.mem_map.mp hlabel
    have hok := hall part hpart
    rw [Bool.and_eq_true, Bool.and_eq_true, decide_eq_true_iff, decide_eq_true_iff,
      List.all_eq_true] at hok
    exact wireLabel_asciiLower hok.1.1 hok.1.2 hok.2
  · have hsum : ((name.splitOn '.').map asciiLower).map (fun label => label.length + 1) =
        (name.splitOn '.').map fun part => part.length + 1 := by
      rw [List.map_map]
      exact List.map_congr_left fun part _ => congrArg (· + 1) (length_asciiLower part)
    have hle : utf16Length name ≤ 253 := hbad.2
    have hname := length_le_utf16Length name
    rw [wireLength_eq, hsum, sum_splitOn]
    omega

/-! ## The name on the wire -/

theorem text_labelBytes (before after : Bytes) {label : Text} (h : WireLabel label) :
    text (before ++ (labelBytes label ++ after)) (before.length + 1)
      (before.length + 1 + label.length) = label := by
  have hdrop : (before ++ (labelBytes label ++ after)).drop (before.length + 1) =
      (label.map fun c => UInt8.ofNat c.toNat) ++ after := by
    rw [← List.drop_drop, List.drop_left]
    rfl
  unfold text
  rw [hdrop, Nat.add_sub_cancel_left, List.take_append_of_le_length (by rw [List.length_map]),
    List.take_of_length_le (by rw [List.length_map]), List.map_map]
  refine (List.map_congr_left fun c hc => ?_).trans (List.map_id label)
  show Char.ofNat (UInt8.ofNat c.toNat).toNat = c
  rw [UInt8.toNat_ofNat_of_lt' (h.byte c hc), Char.ofNat_toNat]

/-- **Labels written one after the other are a name.** By induction on the labels. -/
theorem nameAt_labels {labels : List Text} (h : ∀ label ∈ labels, WireLabel label)
    (before after : Bytes) :
    NameAt (before ++ ((labels.map labelBytes).flatten ++ (0 :: after))) 0 before.length labels
      (before.length + (labels.map labelBytes).flatten.length + 1) := by
  induction labels generalizing before with
  | nil =>
    refine .root ?_
    rw [List.map_nil, List.flatten_nil, List.nil_append, List.getElem?_append_right le_rfl,
      Nat.sub_self]
    rfl
  | cons label labels ih =>
    obtain ⟨hlabel, hlabels⟩ := List.forall_mem_cons.mp h
    have hlt : label.length < 256 := hlabel.short.trans_lt (by decide)
    have hlength : (UInt8.ofNat label.length).toNat = label.length := UInt8.toNat_ofNat_of_lt' hlt
    have hbytes : (labelBytes label).length = label.length + 1 := by
      unfold labelBytes
      rw [List.length_cons, List.length_map]
    have hname := ih hlabels (before ++ labelBytes label)
    rw [List.append_assoc, List.length_append, hbytes] at hname
    rw [List.map_cons, List.flatten_cons, List.append_assoc, List.length_append, hbytes]
    generalize (labels.map labelBytes).flatten = tail at hname ⊢
    have htext := text_labelBytes before (tail ++ 0 :: after) hlabel
    have hget : (before ++ (labelBytes label ++ (tail ++ 0 :: after)))[before.length]? =
        some (UInt8.ofNat label.length) := by
      rw [List.getElem?_append_right le_rfl, Nat.sub_self]
      rfl
    have hfits : before.length + 1 + (UInt8.ofNat label.length).toNat ≤
        (before ++ (labelBytes label ++ (tail ++ 0 :: after))).length := by
      rw [hlength, List.length_append, List.length_append, hbytes]
      omega
    have hrest : NameAt (before ++ (labelBytes label ++ (tail ++ 0 :: after))) 0
        (before.length + 1 + (UInt8.ofNat label.length).toNat) labels
        (before.length + (label.length + 1 + tail.length) + 1) := by
      rw [hlength]
      convert hname using 1 <;> omega
    have hstep := NameAt.label hget (by rw [hlength]; exact hlabel.pos)
      (by rw [hlength]; exact hlabel.short) hfits hrest
    rwa [hlength, htext, hlabel.lower] at hstep

/-! ## The question -/

theorem u16_bytes16 (before after : Bytes) {n : ℕ} (h : n < 65536) :
    u16 (before ++ (bytes16 n ++ after)) before.length = some n := by
  unfold u16 bytes16
  have hone : before.length + 1 - before.length = 1 := by omega
  rw [List.getElem?_append_right le_rfl, Nat.sub_self, List.getElem?_append_right (Nat.le_succ _), hone]
  show some (256 * (UInt8.ofNat (n / 256)).toNat + (UInt8.ofNat n).toNat) = some n
  have hhi : (UInt8.ofNat (n / 256)).toNat = n / 256 := UInt8.toNat_ofNat_of_lt' (by
    rw [UInt8.size]
    omega)
  have hlo : (UInt8.ofNat n).toNat = n % 256 := UInt8.toNat_ofNat
  rw [hhi, hlo]
  exact congrArg some (Nat.div_add_mod n 256)

variable {hostname : Text} {labels : List Text} {id : ℕ}

/-- **The query for a hostname asks for the TXT records of its labels.** -/
theorem asks_encodeQuery (h : nameLabels hostname = some labels) (hid : id < 65536) (edns : Bool) :
    u16 (encodeQuery { id, labels } edns) 0 = some id ∧
      u16 (encodeQuery { id, labels } edns) 4 = some 1 ∧
      ∃ next, Asks (encodeQuery { id, labels } edns) 0 labels next := by
  obtain ⟨hlabels, hlength⟩ := wireLabels_of_nameLabels h
  unfold encodeQuery
  generalize (if edns = true then [0] ++ bytes16 TYPE_OPT ++ bytes16 EDNS_UDP_PAYLOAD ++
    [0, 0, 0, 0, 0, 0] else []) = opt
  generalize (if edns = true then 1 else 0) = additional
  dsimp only
  have hheader : (bytes16 id ++ bytes16 0x0100 ++ bytes16 1 ++ bytes16 0 ++ bytes16 0 ++
      bytes16 additional).length = DNS_HEADER_BYTES := rfl
  refine ⟨?_, ?_, ?_⟩
  · exact u16_bytes16 [] _ hid
  · rfl
  · generalize (bytes16 id ++ bytes16 0x0100 ++ bytes16 1 ++ bytes16 0 ++ bytes16 0 ++
      bytes16 additional) = header at hheader ⊢
    have hname := nameAt_labels hlabels header (bytes16 TYPE_TXT ++ (bytes16 CLASS_IN ++ opt))
    generalize (labels.map labelBytes).flatten = name at hname ⊢
    have hmessage : header ++ name ++ [0] ++ bytes16 TYPE_TXT ++ bytes16 CLASS_IN ++ opt =
        header ++ (name ++ 0 :: (bytes16 TYPE_TXT ++ (bytes16 CLASS_IN ++ opt))) := by
      simp only [List.append_assoc]
      rfl
    have hstop : (header ++ name ++ [0]).length = header.length + name.length + 1 := by
      rw [List.length_append, List.length_append, List.length_singleton]
    have htype := u16_bytes16 (header ++ name ++ [0]) (bytes16 CLASS_IN ++ opt)
      (show TYPE_TXT < 65536 by decide)
    have hclass := u16_bytes16 (header ++ name ++ [0] ++ bytes16 TYPE_TXT) opt
      (show CLASS_IN < 65536 by decide)
    rw [← List.append_assoc, ← List.append_assoc, hstop] at htype
    rw [← List.append_assoc, List.length_append, hstop] at hclass
    rw [← hmessage, hheader] at hname
    rw [hheader] at htype hclass
    exact ⟨_, _, ⟨0, le_rfl, hname, hlength⟩, htype, hclass, rfl⟩

end BunMail.DnsWire
