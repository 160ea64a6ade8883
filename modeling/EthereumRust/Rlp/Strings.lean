import EthereumRust.Rlp.Canonical

/-!
# Byte strings in RLP data

A list of strings is read back as these strings, and what the decoder reads off the front of encoded
strings are the strings themselves.
-/

namespace EthereumRust.Rlp

open Rust Method List

theorem length_le_encodeBytes : s.length ≤ (encodeBytes s).length := by
  rcases encodeBytes_eq s with heq | ⟨b, -, rfl, heq⟩
  · rw [heq, length_append]
    exact Nat.le_add_left _ _
  · rw [heq]

variable {strings : List Bytes}

theorem length_le_flatMap_encodeBytes (h : s ∈ strings) :
    s.length ≤ (strings.flatMap encodeBytes).length := by
  induction strings with
  | nil => cases h
  | cons s' strings ih =>
    rw [flatMap_cons, length_append]
    rcases mem_cons.mp h with rfl | h
    · exact Nat.le_add_right_of_le length_le_encodeBytes
    · exact Nat.le_add_left_of_le (ih h)

theorem length_encodeBytes_le (h : s.length < 56) : (encodeBytes s).length ≤ s.length + 1 := by
  rcases encodeBytes_eq s with heq | ⟨b, -, rfl, heq⟩
  · rw [heq, length_append, header_short h, length_singleton, add_comm]
  · rw [heq]
    simp

theorem readsAll_map_string (h : ∀ s ∈ strings, s.length < 2 ^ 32) :
    ReadsAll (strings.map .string) (strings.flatMap encodeBytes) := by
  induction strings with
  | nil => rw [map_nil, ReadsAll, flatMap_nil]
  | cons s strings ih =>
    exact ⟨_, _, rfl, reads_encodeBytes (h s mem_cons_self),
      ih fun s hs => h s (mem_cons_of_mem _ hs)⟩

theorem readsAll_strings (H : ReadsAll items b)
    (hlen : strings.length ≤ items.length) (hstr : ∀ s ∈ strings, s.length < 2 ^ 32)
    (heq : b ++ X = strings.flatMap encodeBytes ++ Y) : strings.map RlpItem.string <+: items := by
  induction strings generalizing items b X with
  | nil => exact nil_prefix
  | cons s strings ih =>
    cases items with
    | nil => cases hlen
    | cons item items =>
      obtain ⟨b₁, b₂, rfl, H₁, H₂⟩ := H
      rw [flatMap_cons, append_assoc, append_assoc] at heq
      have hs := hstr s (mem_cons_self ..)
      obtain ⟨rfl, rfl⟩ := H₁.eq_string (reads_encodeBytes hs) heq
      rw [append_cancel_left_eq] at heq
      have htail := ih H₂ (Nat.le_of_succ_le_succ hlen)
        (fun s hs => hstr s (mem_cons_of_mem _ hs)) heq
      exact prefix_cons_inj _ |>.mpr htail

variable {d' : Decoder}

theorem readsAll_of_decodeList
    (h : decodeList RlpItem (.new (encodePayload payload)) = .ok items d') :
    ∃ b, ReadsAll items b ∧ b <+: payload := by
  obtain ⟨off, len, hh, hwhi, -⟩ := decodeListWith_ok h
  obtain ⟨b, ⟨hb, -⟩, H⟩ := decodeWhileF_inv decode_inv hwhi
  rw [Decoder.rest_new] at hh
  rcases readHeader_inv hh with ⟨_, _, -, -, -, -, hlist⟩ | ⟨header, tail, heq, rfl, HF⟩
  · cases hlist
  · obtain ⟨hhd, htail, -⟩ := HF.aligned heq
    rw [Decoder.rest_advance, Decoder.rest_new, heq, drop_left, ← htail] at hb
    exact ⟨b, H, hb⟩

theorem decodeBytes_encodeBytes (hlen : s.length < 2 ^ 32)
    (h : decodeBytes (.new (encodeBytes s)) = .ok s' d') : s' = s := by
  obtain ⟨b, ⟨⟨tail, htail⟩, -⟩, H⟩ := decodeBytes_inv h
  obtain ⟨heq, -⟩ := H.eq_string (reads_encodeBytes hlen) (htail.trans (append_nil _).symm)
  exact RlpItem.string.inj heq

theorem encodePayload_eq (payload : Bytes) :
    ∃ byte tail, encodePayload payload = byte :: tail ∧ 0xc0 ≤ byte.toNat := by
  have hlen := length_encodeLength payload.length
  unfold encodePayload header
  split_ifs with h
  · refine ⟨_, _, rfl, ?_⟩
    rw [UInt8.toNat_ofNat']
    omega
  · refine ⟨_, _, rfl, ?_⟩
    rw [UInt8.toNat_ofNat']
    omega

theorem decodeBytes_encodePayload_ne_ok : decodeBytes (.new (encodePayload payload)) ≠ .ok s d := by
  intro h
  obtain ⟨⟨off, len, isData⟩, d₁, hhd, h⟩ := bind_eq_ok.mp h
  obtain ⟨hh, rfl⟩ := decodeHeader_inv hhd
  obtain ⟨byte, tail, heq, hbyte⟩ := encodePayload_eq payload
  rw [heq] at hh
  obtain rfl := (readHeader_isData hh).mpr hbyte
  exact absurd h fail_ne_ok

theorem isEmptyString_inv (h : isEmptyString d = .ok empty d') :
    d' = d ∧ (empty = true → ∃ tail, d.rest = 0x80 :: tail) := by
  rw [isEmptyString, bind_eq_ok] at h
  obtain ⟨_, d, hread, h⟩ := h
  obtain ⟨rfl, rfl⟩ := read_eq_ok.mp hread
  cases hb : d.data[d.position]? with
  | none =>
    rw [hb] at h
    exact absurd h fail_ne_ok
  | some byte =>
    rw [hb] at h
    obtain ⟨rfl, rfl⟩ := pure_eq_ok.mp h
    refine ⟨rfl, fun hbyte => ?_⟩
    rw [Decoder.rest_of_getElem? hb, beq_iff_eq.mp hbyte]
    exact ⟨_, rfl⟩

theorem decodeArray_inv {n : Nat} {name : String} {d : Decoder} {a : List.Vector UInt8 n}
    (h : decodeArray n name d = .ok a d') : decodeBytes d = .ok a.toList d' := by
  rw [decodeArray, bind_eq_ok] at h
  obtain ⟨bytes, d₁, hbs, h⟩ := h
  by_cases hlen : bytes.length = n
  · obtain ⟨rfl, rfl⟩ := pure_eq_ok.mp ((congrFun (dif_pos hlen) d₁).symm.trans h)
    exact hbs
  · exact absurd ((congrFun (dif_neg hlen) d₁).symm.trans h) fail_ne_ok

end EthereumRust.Rlp
