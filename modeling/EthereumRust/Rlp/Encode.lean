import EthereumRust.Types

/-!
# RLP encoding (`crates/rlp`: `encode.rs`, `traits.rs`)

An `Encoder` is only ever appended to, so what a method of it does is the byte string that it
appends, and `finish` returns the concatenation.
-/

namespace EthereumRust

namespace Rlp
open Rust

/-- `usize` lengths of 2^32 and more lose their high bytes here. -/
def encodeLength (len : Nat) : Bytes :=
  if len < 256 then [.ofNat len]
  else if len < 65536 then [.ofNat (len >>> 8), .ofNat len]
  else if len < 16777216 then [.ofNat (len >>> 16), .ofNat (len >>> 8), .ofNat len]
  else [.ofNat (len >>> 24), .ofNat (len >>> 16), .ofNat (len >>> 8), .ofNat len]

/-- The header that `encode_bytes` and `encode_list` write before a payload of `len` bytes; the
two differ in the first byte of the short form and of the long form. -/
def header (short long len : Nat) : Bytes :=
  if len < 56 then [.ofNat (short + len)]
  else .ofNat (long + (encodeLength len).length) :: encodeLength len

def encodeBytes (bytes : Bytes) : Bytes :=
  match bytes with
  | [] => [0x80]
  | [b] => if b < 0x80 then [b] else header 0x80 0xb7 1 ++ [b]
  | bytes => header 0x80 0xb7 bytes.length ++ bytes

def encodePayload (listBytes : Bytes) : Bytes := header 0xc0 0xf7 listBytes.length ++ listBytes

class Encode (α : Type) where
  encode : α → Bytes

export Encode (encode)

def encodeList [Encode α] (items : List α) : Bytes := encodePayload (items.flatMap encode)

/-- `value.to_be_bytes()` from the first non-zero byte on; nothing for zero. -/
def trimmedBigEndian (width value : Nat) : Bytes :=
  if value = 0 then [] else (toBigEndian width value).dropWhile (· == 0)

def encodeU8 (value : UInt8) : Bytes := encodeBytes (if value = 0 then [] else [value])

def encodeU16 (value : UInt16) : Bytes :=
  encodeBytes <|
    if value = 0 then []
    else if value < 256 then [value.toUInt8]
    else toBigEndian 2 value.toNat

def encodeU32 (value : UInt32) : Bytes := encodeBytes (trimmedBigEndian 4 value.toNat)

def encodeU64 (value : UInt64) : Bytes := encodeBytes (trimmedBigEndian 8 value.toNat)

def encodeBool (value : Bool) : Bytes := encodeU8 (if value then 1 else 0)

instance : Encode UInt8 := ⟨encodeU8⟩
instance : Encode UInt16 := ⟨encodeU16⟩
instance : Encode UInt32 := ⟨encodeU32⟩
instance : Encode UInt64 := ⟨encodeU64⟩
instance : Encode Bool := ⟨encodeBool⟩
instance : Encode U256 := ⟨fun value => encodeBytes (trimmedBigEndian 32 value.toNat)⟩

instance : Encode Bytes := ⟨encodeBytes⟩

instance : Encode (List.Vector UInt8 n) := ⟨fun array => encodeBytes array.toList⟩

instance [Encode α] : Encode (Option α) where
  encode
    | some value => encode value
    | none => encodeBytes []

inductive RlpItem where
  | string (bytes : Bytes)
  | list (items : List RlpItem)
  deriving Repr

def RlpItem.asList : RlpItem → Option (List RlpItem)
  | .string _ => none
  | .list items => some items

mutual

def RlpItem.encode : RlpItem → Bytes
  | .string bytes => encodeBytes bytes
  | .list items => encodePayload (RlpItem.encodeAll items)

def RlpItem.encodeAll : List RlpItem → Bytes
  | [] => []
  | item :: items => item.encode ++ RlpItem.encodeAll items

end

instance : Encode RlpItem := ⟨RlpItem.encode⟩

@[simp] theorem header_short (h : len < 56) :
    header short long len = [.ofNat (short + len)] := if_pos h

theorem header_long (h : 56 ≤ len) :
    header short long len = .ofNat (long + (encodeLength len).length) :: encodeLength len :=
  if_neg (not_lt.mpr h)

theorem length_encodeLength (len : Nat) :
    1 ≤ (encodeLength len).length ∧ (encodeLength len).length ≤ 4 := by
  unfold encodeLength
  split_ifs <;> simp

theorem length_header_pos (short long len : Nat) : 0 < (header short long len).length := by
  unfold header
  split_ifs <;> simp

theorem encodeBytes_eq (bytes : Bytes) :
    encodeBytes bytes = header 0x80 0xb7 bytes.length ++ bytes ∨
      ∃ b : UInt8, b < 0x80 ∧ bytes = [b] ∧ encodeBytes bytes = [b] := by
  unfold encodeBytes
  split
  · exact .inl rfl
  · split_ifs with h
    · exact .inr ⟨_, h, rfl, rfl⟩
    · exact .inl rfl
  · exact .inl rfl

theorem encodeBytes_of_length (h : 2 ≤ bytes.length) :
    encodeBytes bytes = header 0x80 0xb7 bytes.length ++ bytes := by
  rcases encodeBytes_eq bytes with heq | ⟨b, -, rfl, -⟩
  · exact heq
  · simp at h

end Rlp

end EthereumRust
