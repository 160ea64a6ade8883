import EthereumRust.Crypto
import EthereumRust.Lib.Hex

/-!
# Addresses as texts (`crates/types`: `address.rs`)

The checksum of an address is the case of its hexadecimal letters: a letter is upper-case where the
hash of the lower-case text has a nibble of at least 8. `from_str` reads a text in one case without
looking at the hash, and a text with an upper-case letter only if all letters have the case of the
checksum.
-/

namespace EthereumRust

open Rust List Hex

inductive TypesError where
  | invalidHex (text : String)
  | invalidLength (expected actual : Nat)
  | invalidChecksum
  | overflow
  deriving DecidableEq

def strip0x (s : String) : String :=
  match s.toList with
  | '0' :: 'x' :: rest => .ofList rest
  | _ => s

theorem strip0x_append (s : String) : strip0x ("0x" ++ s) = s := by
  have hlist : ("0x" ++ s).toList = '0' :: 'x' :: s.toList := String.toList_append
  rw [strip0x, hlist]
  exact String.ofList_toList

namespace Address

/-- The case of the letter at a position. The hash has 32 bytes and the text 40 characters. -/
def checksumChar (hash : H256) (ch : Char) (i : Nat) : Char :=
  if ch.isAlpha then
    let hashByte := hash.toList.getD (i / 2) 0
    let hashNibble := if i % 2 = 0 then hashByte >>> 4 else hashByte &&& 0xf
    if 8 ≤ hashNibble then ch.toUpper else ch.toLower
  else ch

section
variable [Crypto]

def checksum (self : Address) : String :=
  let addressHex := Hex.encode self.toList
  let hash := keccak256 (asBytes addressHex)
  "0x" ++ String.ofList (addressHex.toList.zipIdx.map fun (ch, i) => checksumChar hash ch i)

def fromStr (s : String) : Except TypesError Address :=
  let s := strip0x s
  if s.utf8ByteSize ≠ 40 then .error (.invalidLength 40 s.utf8ByteSize)
  else
    match Hex.decode s with
    | none => .error (.invalidHex s)
    | some bytes =>
      if h : bytes.length = 20 then
        let addr : Address := ⟨bytes, h⟩
        if s.toList.any Char.isUpper ∧ strip0x addr.checksum ≠ s then .error .invalidChecksum
        else .ok addr
      else .error (.invalidLength 20 bytes.length)

omit [Crypto] in
theorem value_checksumChar (hash : H256) {n : Nat} (hn : n < 16) :
    value (checksumChar hash n.digitChar i) = value n.digitChar := by
  have hcase : ∀ n < 16, value n.digitChar.toUpper = value n.digitChar ∧
      value n.digitChar.toLower = value n.digitChar := by decide
  unfold checksumChar
  split
  · change value (if 8 ≤ _ then _ else _) = _
    rw [apply_ite value, (hcase n hn).1, (hcase n hn).2, ite_self]
  · rfl

omit [Crypto] in
theorem exists_digitChar (h : c ∈ (encode data).toList) : ∃ n < 16, c = n.digitChar := by
  rw [encode, String.toList_ofList, mem_flatMap] at h
  obtain ⟨byte, -, h⟩ := h
  have hlt := byte.toNat_lt
  rcases mem_pair.mp h with rfl | rfl
  · exact ⟨byte.toNat / 16, by omega, rfl⟩
  · exact ⟨byte.toNat % 16, by omega, rfl⟩

theorem decode_checksum (self : Address) :
    ∃ digits, self.checksum = "0x" ++ digits ∧ decode digits = some self.toList := by
  refine ⟨_, rfl, ?_⟩
  rw [← decode_encode self.toList, decode, String.toList_ofList]
  refine pairs_congr ?_
  nth_rewrite 2 [← zipIdx_map_fst 0 (encode self.toList).toList]
  rw [map_map, map_map]
  refine map_congr_left fun entry hent => ?_
  obtain ⟨ch, i⟩ := entry
  obtain ⟨n, hn, rfl⟩ := exists_digitChar (fst_mem_of_mem_zipIdx hent)
  exact value_checksumChar _ hn

def nibble (hash : H256) (i : Nat) : Nat :=
  (hash.toList.getD (i / 2) 0).toNat / 16 ^ (1 - i % 2) % 16

omit [Crypto] in
theorem checksumChar_eq (hash : H256) (ch : Char) (i : Nat) : checksumChar hash ch i =
    if ch.isAlpha then if 8 ≤ nibble hash i then ch.toUpper else ch.toLower else ch := by
  have hhigh (b : UInt8) : (8 : UInt8) ≤ b >>> 4 ↔ 8 ≤ b.toNat / 16 % 16 := by
    have hlt := b.toNat_lt
    rw [UInt8.le_iff_toNat_le, UInt8.toNat_shiftRight]
    simp [Nat.shiftRight_eq_div_pow]
    omega
  have hlow (b : UInt8) : (8 : UInt8) ≤ b &&& 0xf ↔ 8 ≤ b.toNat % 16 := by
    rw [UInt8.le_iff_toNat_le, UInt8.toNat_and]
    exact Iff.of_eq (congrArg (8 ≤ ·) (Nat.and_two_pow_sub_one_eq_mod b.toNat 4))
  unfold checksumChar nibble
  rcases Nat.mod_two_eq_zero_or_one i with h | h
  · simp [h, hhigh]
  · simp [h, hlow]

/-- A letter of the checksum is upper-case if and only if the nibble of the hash at its place is at
least 8. -/
theorem isUpper_checksum_iff {s : Address} (h : s.checksum.toList[i + 2]? = some c)
    (hlet : c.isAlpha) :
    c.isUpper ↔ 8 ≤ nibble (keccak256 (asBytes (encode s.toList))) i := by
  have hcase : ∀ n < 16, n.digitChar.isAlpha → n.digitChar.toUpper.isUpper ∧
      ¬n.digitChar.toLower.isUpper := by decide
  simp only [checksum, String.toList_append, String.toList_ofList] at h
  change ((zipIdx _).map _)[i]? = _ at h
  rw [getElem?_map, Option.map_eq_some_iff] at h
  obtain ⟨⟨ch, j⟩, hent, rfl⟩ := h
  obtain ⟨n, hn, rfl⟩ := exists_digitChar (fst_mem_of_mem_zipIdx (mem_of_getElem? hent))
  obtain rfl : i = j := by simp_all
  simp only [checksumChar_eq] at hlet ⊢
  by_cases halp : n.digitChar.isAlpha
  · rw [if_pos halp]
    by_cases hnib : 8 ≤ nibble (keccak256 (asBytes (encode s.toList))) i
    · simp [hnib, (hcase n hn halp).1]
    · simp [hnib, (hcase n hn halp).2]
  · simp [halp] at hlet

theorem strip0x_checksum {self : Address} :
    strip0x self.checksum = digits ↔ self.checksum = "0x" ++ digits := by
  obtain ⟨digits', hche, -⟩ := decode_checksum self
  rw [hche, strip0x_append]
  constructor
  · rintro rfl
    rfl
  · intro h
    rw [← strip0x_append digits', h, strip0x_append]

omit [Crypto] in
theorem digits_of_decode {t : Address} (h : decode s = some t.toList) :
    s.length = 40 ∧ ∀ c ∈ s.toList, Hex.IsDigit c := by
  obtain ⟨hlen, hdig⟩ := of_pairs_eq_some h
  rw [List.Vector.toList_length] at hlen
  exact ⟨hlen, hdig⟩

omit [Crypto] in
theorem exists_decode (hlen : s.length = 40) (h : ∀ c ∈ s.toList, Hex.IsDigit c) :
    ∃ t : Address, decode s = some t.toList := by
  have hpai : s.toList.length = 2 * 20 := String.length_toList.trans hlen
  obtain ⟨bytes, hbs⟩ := exists_pairs hpai h
  have hlen := (of_pairs_eq_some hbs).1
  exact ⟨⟨bytes, by omega⟩, hbs⟩

theorem fromStr_eq_ok {self : Address} :
    fromStr s = .ok self ↔ decode (strip0x s) = some self.toList ∧
      ((∀ c ∈ (strip0x s).toList, ¬c.isUpper) ∨ self.checksum = "0x" ++ strip0x s) := by
  have hany : ¬(strip0x s).toList.any Char.isUpper ↔ ∀ c ∈ (strip0x s).toList, ¬c.isUpper := by
    simp
  rw [← hany, ← strip0x_checksum]
  constructor
  · intro h
    unfold fromStr at h
    dsimp only at h
    split_ifs at h
    split at h
    · cases h
    · next bytes hdec =>
      split_ifs at h with hlen hupp
      cases h
      exact ⟨hdec, (not_and_or.mp hupp).imp_right not_not.mp⟩
  · rintro ⟨hdec, hcase⟩
    obtain ⟨hlen, hdig⟩ := digits_of_decode hdec
    have hsize := utf8ByteSize_of_digits hdig
    unfold fromStr
    dsimp only
    rw [if_neg (not_not.mpr (hsize.trans hlen)), hdec]
    dsimp only
    rw [dif_pos self.toList_length]
    exact if_neg (not_and_or.mpr (hcase.imp_right not_not.mpr))

end

/-- `from_str` reads the checksum of every address, and it accepts the texts of 40 digits, with or
without `0x` in front, that have no upper-case letter or the case of the checksum of the address
that they denote. -/
theorem fromStr_accepts_iff [Crypto] : (∀ self : Address, fromStr self.checksum = .ok self) ∧
    ∀ s : String, (∃ self, fromStr s = .ok self) ↔
      (strip0x s).length = 40 ∧ (∀ c ∈ (strip0x s).toList, Hex.IsDigit c) ∧
        ((∀ c ∈ (strip0x s).toList, ¬c.isUpper) ∨ ∃ self : Address,
          decode (strip0x s) = some self.toList ∧ self.checksum = "0x" ++ strip0x s) := by
  constructor
  · intro self
    obtain ⟨digits, hchecksum, hdecode⟩ := decode_checksum self
    rw [fromStr_eq_ok, hchecksum, strip0x_append]
    exact ⟨hdecode, .inr rfl⟩
  · intro s
    simp only [fromStr_eq_ok]
    constructor
    · rintro ⟨self, hdecode, hcase⟩
      obtain ⟨hlength, hdigits⟩ := digits_of_decode hdecode
      exact ⟨hlength, hdigits, hcase.imp id fun hcase => ⟨self, hdecode, hcase⟩⟩
    · rintro ⟨hlength, hdigits, hlower | ⟨self, hdecode, hcase⟩⟩
      · obtain ⟨self, hdecode⟩ := exists_decode hlength hdigits
        exact ⟨self, hdecode, .inl hlower⟩
      · exact ⟨self, hdecode, .inr hcase⟩

end Address

end EthereumRust
