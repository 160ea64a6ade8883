import EthereumRust.Rlp.Visits

/-!
# The round trips of items and of fields

The encoder writes a header that the decoder accepts as long as the length of the payload takes at
most four bytes, so what it writes stands for the item. Fields are encoded as strings.
-/

namespace EthereumRust.Rlp
open Rust RlpItem

mutual

/-- Every payload is shorter than `2 ^ 32` bytes. -/
def RlpItem.Fits : RlpItem → Prop
  | .string bytes => bytes.length < 2 ^ 32
  | .list items => (RlpItem.encodeAll items).length < 2 ^ 32 ∧ RlpItem.FitsAll items

def RlpItem.FitsAll : List RlpItem → Prop
  | [] => True
  | item :: items => item.Fits ∧ RlpItem.FitsAll items

end

theorem readHeader_kindHeader (isData : Bool) (h : payload.length < 2 ^ 32) :
    readHeader (kindHeader isData payload.length ++ payload) =
      .ok ((kindHeader isData payload.length).length, payload.length, isData) :=
  (headerForm_kindHeader h).readHeader_append payload

theorem reads_encodeBytes {s : Bytes} (h : s.length < 2 ^ 32) :
    Reads (.string s) (encodeBytes s) := by
  rcases encodeBytes_eq s with heq | ⟨b, hb, rfl, heq⟩
  · rw [heq]
    exact ⟨_, readHeader_kindHeader true h, List.drop_left⟩
  · rw [heq]
    refine ⟨0, readHeader_small ?_ [], rfl⟩
    exact Nat.le_of_lt_succ (UInt8.lt_iff_toNat_lt.mp hb)

theorem reads_encodePayload (H : ReadsAll items payload)
    (h : payload.length < 2 ^ 32) : Reads (.list items) (encodePayload payload) := by
  refine ⟨(kindHeader false payload.length).length, ?_, ?_⟩
  · rw [encodePayload, List.length_append]
    refine (readHeader_kindHeader false h).trans ?_
    rw [kindHeader, Nat.add_sub_cancel_left]
  · rw [encodePayload, kindHeader, List.drop_left]
    exact H

mutual

theorem reads_encode : ∀ item : RlpItem, item.Fits → Reads item item.encode
  | .string s, h => by
    rw [RlpItem.Fits] at h
    rw [RlpItem.encode]
    exact reads_encodeBytes h
  | .list items, h => by
    rw [RlpItem.Fits] at h
    rw [RlpItem.encode]
    exact reads_encodePayload (readsAll_encodeAll items h.2) h.1

theorem readsAll_encodeAll : ∀ items : List RlpItem, RlpItem.FitsAll items →
    ReadsAll items (encodeAll items)
  | [], _ => by rw [ReadsAll, encodeAll]
  | item :: items, h => by
    rw [RlpItem.FitsAll] at h
    rw [ReadsAll, encodeAll]
    exact ⟨_, _, rfl, reads_encode item h.1, readsAll_encodeAll items h.2⟩

end

/-- Both readers return an item from its encoding, whatever follows it, and stop behind it. The
last hypothesis is the bound of Rust on the length of a slice. -/
theorem decode_encode_append (item : RlpItem) (suffix : Bytes) (hfits : item.Fits)
    (hsl : (encode item ++ suffix).length ≤ isizeMax) :
    decodeItem (.new (encode item ++ suffix)) =
        .ok item ⟨encode item ++ suffix, (encode item).length⟩ ∧
      RlpItem.decode (.new (encode item ++ suffix)) =
        .ok item ⟨encode item ++ suffix, (encode item).length⟩ := by
  have H : Reads item (encode item) := reads_encode item hfits
  have hadv : (Decoder.new (encode item ++ suffix)).advance (encode item).length =
      ⟨encode item ++ suffix, (encode item).length⟩ := by
    rw [Decoder.advance, Decoder.new, zero_add]
  rw [← hadv]
  exact ⟨decodeItem_yields H _ suffix hsl rfl, decode_yields H _ suffix hsl rfl⟩

theorem decode_encode_append_nested :
    decodeItem (.new [0xc4, 0x82, 0x01, 0x02, 0xc0, 0xff]) =
        .ok (.list [.string [1, 2], .list []]) ⟨[0xc4, 0x82, 0x01, 0x02, 0xc0, 0xff], 5⟩ ∧
      RlpItem.decode (.new [0xc4, 0x82, 0x01, 0x02, 0xc0, 0xff]) =
        .ok (.list [.string [1, 2], .list []]) ⟨[0xc4, 0x82, 0x01, 0x02, 0xc0, 0xff], 5⟩ :=
  decode_encode_append (.list [.string [1, 2], .list []]) [0xff]
    (by simp [RlpItem.Fits, RlpItem.FitsAll, RlpItem.encodeAll, RlpItem.encode, encodePayload,
      encodeBytes, header]) (by decide)

open Method List

/-- The value is decoded from its encoding, whatever follows. -/
def RoundTrips [Encode α] [Decode α] (a : α) : Prop := Yields Decode.decode a (encode a)

theorem Yields.bind {rd : Read α} {f : α → Read β} (h : Yields rd a b)
    (hf : ∀ d, f a d = .ok c d) : Yields (rd >>= f) c b :=
  fun d tail hd hrest => (bind_of_ok (h d tail hd hrest)).trans (hf _)

theorem yields_encodeBytes {s : Bytes} (h : s.length < 2 ^ 32) :
    Yields decodeBytes s (encodeBytes s) := by
  obtain ⟨off, hh, hs⟩ := reads_encodeBytes h
  exact decodeBytes_yields hh hs

theorem ofBigEndian_dropWhile (bytes : Bytes) :
    ofBigEndian (bytes.dropWhile (· == 0)) = ofBigEndian bytes := by
  induction bytes with
  | nil => rfl
  | cons byte bytes ih =>
    rw [dropWhile_cons]
    split_ifs with hzero
    · rw [ih, ofBigEndian_cons, beq_iff_eq.mp hzero]
      simp
    · rfl

theorem yields_decodeUint (h : value < 256 ^ width) (hwid : width < 2 ^ 32) :
    Yields (decodeUint width) value (encodeBytes (trimmedBigEndian width value)) := by
  have hlen : (trimmedBigEndian width value).length ≤ width := by
    rw [trimmedBigEndian]
    split_ifs
    · exact Nat.zero_le _
    · exact (dropWhile_sublist _).length_le.trans (length_toBigEndian _ _).le
  refine (yields_encodeBytes (hlen.trans_lt hwid)).bind fun d => ?_
  by_cases hzero : value = 0
  · rw [trimmedBigEndian, if_pos hzero, hzero]
    rfl
  · have hval : ofBigEndian (trimmedBigEndian width value) = value := by
      rw [trimmedBigEndian, if_neg hzero, ofBigEndian_dropWhile, ofBigEndian_toBigEndian h]
    have hne : trimmedBigEndian width value ≠ [] := fun hnil => hzero (by rw [← hval, hnil]; rfl)
    have hhead : (trimmedBigEndian width value).head? ≠ some 0 := by
      intro hhead
      have hnon := head?_dropWhile_not (· == 0) (toBigEndian width value)
      rw [trimmedBigEndian, if_neg hzero] at hhead
      rw [hhead] at hnon
      cases hnon
    rw [if_neg (by simpa using hne), if_neg (not_lt.mpr hlen), if_neg fun h => hhead h.2, hval]
    rfl

theorem roundTrips_u8 (value : UInt8) : RoundTrips value := by
  refine (yields_encodeBytes ?_).bind fun d => ?_
  · split_ifs <;> simp
  · split_ifs with hzero
    · rw [hzero]
      rfl
    · rfl

theorem yields_decodeArray {name : String} (hn : n < 2 ^ 32) (array : List.Vector UInt8 n) :
    Yields (decodeArray n name) array (encode array) := by
  refine (yields_encodeBytes (by rwa [array.toList_length])).bind fun d => ?_
  exact congrFun (dif_pos array.toList_length) d

/-- The fields of blocks and transactions are decoded from their encodings. -/
theorem fields_round_trip :
    (∀ value : UInt8, RoundTrips value) ∧ (∀ value : UInt32, RoundTrips value) ∧
    (∀ value : UInt64, RoundTrips value) ∧ (∀ value : U256, RoundTrips value) ∧
    (∀ value : Bool, RoundTrips value) ∧ (∀ value : Address, RoundTrips value) ∧
    (∀ value : H256, RoundTrips value) ∧ (∀ value : Bloom, RoundTrips value) ∧
    ∀ value : Bytes, value.length < 2 ^ 32 → RoundTrips value := by
  refine ⟨roundTrips_u8, fun value => ?_, fun value => ?_, fun value => ?_, fun value => ?_,
    yields_decodeArray (by decide), yields_decodeArray (by decide), yields_decodeArray (by decide),
    fun value => yields_encodeBytes⟩
  · refine (yields_decodeUint value.toNat_lt (by decide)).bind fun d => ?_
    rw [UInt32.ofNat_toNat]
    rfl
  · refine (yields_decodeUint value.toNat_lt (by decide)).bind fun d => ?_
    rw [UInt64.ofNat_toNat]
    rfl
  · refine (yields_decodeUint value.isLt (by decide)).bind fun d => ?_
    rw [BitVec.ofNat_toNat, BitVec.setWidth_eq]
    rfl
  · refine (roundTrips_u8 _).bind fun d => ?_
    cases value <;> rfl

end EthereumRust.Rlp
