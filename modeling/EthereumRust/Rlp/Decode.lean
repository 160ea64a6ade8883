import EthereumRust.Rlp.Encode

/-!
# RLP decoding (`crates/rlp`: `decode.rs`, `error.rs`, `traits.rs`)

A `Decoder` is a byte slice and a position in it, and a method of it is a `Rust.Method`: an error
keeps the position reached, and an addition that leaves the range of `usize` panics.

The two recursive readers, `RlpItem::decode` and `decode_item`, are given as bodies with the
recursive call as argument, and run with the number of bytes left as fuel. Each item read moves the
position forward, so the fuel is never the reason to stop: with no fuel there is no byte left, and
both bodies answer `UnexpectedEof`.
-/

namespace EthereumRust.Rlp
open Rust Method

inductive DecoderError where
  | unexpectedEof
  | invalidData (message : String)
  | integerOverflow
  | leadingZeros
  | listLengthMismatch (expected actual : Nat)
  | stringLengthMismatch (expected actual : Nat)
  | invalidListPrefix (byte : UInt8)
  | invalidStringPrefix (byte : UInt8)
  deriving DecidableEq, Repr

inductive EncoderError where
  | integerOverflow
  | invalidData (message : String)
  deriving DecidableEq, Repr

inductive RlpError where
  | decoder (error : DecoderError)
  | encoder (error : EncoderError)
  deriving DecidableEq, Repr

abbrev RlpError.invalidData (message : String) : RlpError := .decoder (.invalidData message)

structure Decoder where
  data : Bytes
  position : Nat
  deriving DecidableEq, Repr

namespace Decoder

def new (data : Bytes) : Decoder := ⟨data, 0⟩

def rest (self : Decoder) : Bytes := self.data.drop self.position

def advance (self : Decoder) (n : Nat) : Decoder := { self with position := self.position + n }

end Decoder

abbrev Read (α : Type) := Method Decoder RlpError α

def eof : RlpError := .decoder .unexpectedEof

/-- `checked_shl(8)` refuses no shift by 8, and drops the bits it shifts out. -/
def decodeLength (bytes : Bytes) : Except RlpError Nat :=
  match bytes with
  | [] => .error (.invalidData "Empty length bytes")
  | first :: _ =>
    if first = 0 then .error (.decoder .leadingZeros)
    else
      match bytes.foldlM (fun len byte => checkedAddUsize (len * 256 % wordBound) byte.toNat) 0 with
      | some len => .ok len
      | none => .error (.decoder .integerOverflow)

def decodeLongHeader (lenOfLen : Nat) (isData : Bool) : Read (Nat × Nat × Bool) := do
  let self ← read id
  let start ← addUsize self.position 1
  let stop ← addUsize start lenOfLen
  if stop > self.data.length then fail eof
  else
    let bytes ← slice self.data start stop
    let len ← result (decodeLength bytes)
    return (1 + lenOfLen, len, isData)

def decodeHeader : Read (Nat × Nat × Bool) := do
  let self ← read id
  match self.data[self.position]? with
  | none => fail eof
  | some byte =>
    let byte := byte.toNat
    if byte ≤ 0x7f then return (0, 1, true)
    else if byte = 0x80 then return (1, 0, true)
    else if byte ≤ 0xb7 then return (1, byte - 0x80, true)
    else if byte ≤ 0xbf then decodeLongHeader (byte - 0xb7) true
    else if byte = 0xc0 then return (1, 0, false)
    else if byte ≤ 0xf7 then return (1, byte - 0xc0, false)
    else decodeLongHeader (byte - 0xf7) false

def skip (n : Nat) : Read Unit := do
  let position ← addUsize (← read Decoder.position) n
  update fun self => { self with position }

def payloadEnd (len : Nat) : Read Nat := do
  let self ← read id
  let stop ← addUsize self.position len
  if stop > self.data.length then fail eof else return stop

def takeBytes (len : Nat) : Read Bytes := do
  let self ← read id
  let stop ← addUsize self.position len
  let bytes ← slice self.data self.position stop
  skip len
  return bytes

def decodeBytes : Read Bytes := do
  let (offset, len, isData) ← decodeHeader
  if !isData then fail (.invalidData "Expected data, got list")
  else
    skip offset
    let _ ← payloadEnd len
    takeBytes len

/-- `while self.position < end_position { items.push(item(self)?); }`, for at most `fuel` items. -/
def decodeWhileF (item : Read α) (endPosition : Nat) : Nat → Read (List α)
  | 0 => fun self => if self.position < endPosition then .panic .diverges else .ok [] self
  | fuel + 1 => do
    if (← read Decoder.position) < endPosition then
      let first ← item
      let items ← decodeWhileF item endPosition fuel
      return first :: items
    else return []

/-- A loop that ends is at each position below `endPosition` at most once: this is fuel enough. -/
def decodeWhile (item : Read α) (endPosition : Nat) : Read (List α) :=
  decodeWhileF item endPosition endPosition

def decodeListWith (item : Read α) : Read (List α) := do
  let (offset, len, isData) ← decodeHeader
  if isData then fail (.invalidData "Expected list, got data")
  else
    skip offset
    let endPosition ← payloadEnd len
    let items ← decodeWhile item endPosition
    let position ← read Decoder.position
    if position ≠ endPosition then
      fail (.decoder (.listLengthMismatch len (position - (endPosition - len))))
    else return items

/-- A recursive reader, for at most `fuel` nested calls. -/
def nested (body : Read α → Read α) : Nat → Read α
  | 0 => fail eof
  | fuel + 1 => body (nested body fuel)

def recursive (body : Read α → Read α) : Read α := fun self =>
  nested body (self.data.length - self.position) self

def decodeItemWith (item : Read RlpItem) : Read RlpItem := do
  let (offset, len, isData) ← decodeHeader
  skip offset
  let endPosition ← payloadEnd len
  if isData then
    let bytes ← takeBytes len
    return .string bytes
  else
    let items ← decodeWhile item endPosition
    return .list items

def decodeItem : Read RlpItem := recursive decodeItemWith

def isEmptyString : Read Bool := do
  let self ← read id
  match self.data[self.position]? with
  | none => fail eof
  | some byte => return byte == 0x80

def isList : Read Bool := do
  let self ← read id
  match self.data[self.position]? with
  | none => fail eof
  | some byte => return decide (0xc0 ≤ byte.toNat)

def Decoder.isFinished (self : Decoder) : Bool := self.data.length ≤ self.position

class Decode (α : Type) where
  decode : Read α

def decodeList (α : Type) [Decode α] : Read (List α) := decodeListWith Decode.decode

/-- `ethereum_rlp::decode`: bytes behind the value are not looked at. -/
def decode (α : Type) [Decode α] (data : Bytes) : Outcome Decoder RlpError α :=
  (Decode.decode : Read α) (.new data)

def decodeU8 : Read UInt8 := do
  match ← decodeBytes with
  | [] => return 0
  | [b] => return b
  | _ => fail (.decoder .integerOverflow)

def decodeU16 : Read UInt16 := do
  match ← decodeBytes with
  | [] => return 0
  | [b] => return b.toUInt16
  | [b, c] =>
    if b = 0 then fail (.decoder .leadingZeros) else return .ofNat (ofBigEndian [b, c])
  | _ => fail (.decoder .integerOverflow)

/-- The common body of `decode_u32`, `decode_u64` and the decoder of `U256`, which differ in the
number of bytes. -/
def decodeUint (width : Nat) : Read Nat := do
  let bytes ← decodeBytes
  if bytes.isEmpty then return 0
  else if bytes.length > width then fail (.decoder .integerOverflow)
  else if bytes.length > 1 ∧ bytes.head? = some 0 then fail (.decoder .leadingZeros)
  else return ofBigEndian bytes

def decodeU32 : Read UInt32 := return .ofNat (← decodeUint 4)

def decodeU64 : Read UInt64 := return .ofNat (← decodeUint 8)

def decodeBool : Read Bool := do
  match ← decodeU8 with
  | 0 => return false
  | 1 => return true
  | _ => fail (.invalidData "Invalid boolean value")

instance : Decode UInt8 := ⟨decodeU8⟩
instance : Decode UInt16 := ⟨decodeU16⟩
instance : Decode UInt32 := ⟨decodeU32⟩
instance : Decode UInt64 := ⟨decodeU64⟩
instance : Decode Bool := ⟨decodeBool⟩
instance : Decode U256 := ⟨return .ofNat 256 (← decodeUint 32)⟩
instance : Decode Bytes := ⟨decodeBytes⟩

instance [Decode α] : Decode (Option α) where
  decode := do
    if ← isEmptyString then
      let _ ← decodeBytes
      return none
    else
      let value ← Decode.decode
      return some value

/-- An array of `n` bytes; the types differ in the name that the error gives. -/
def decodeArray (n : Nat) (name : String) : Read (List.Vector UInt8 n) := do
  let bytes ← decodeBytes
  if h : bytes.length = n then return (⟨bytes, h⟩ : List.Vector UInt8 n)
  else fail (.invalidData s!"Invalid {name} length: {bytes.length}")

instance : Decode Address := ⟨decodeArray 20 "address"⟩
instance : Decode H256 := ⟨decodeArray 32 "H256"⟩
instance : Decode Bloom := ⟨decodeArray 256 "Bloom filter"⟩

def RlpItem.decodeWith (item : Read RlpItem) : Read RlpItem := do
  if ← isList then
    let items ← decodeListWith item
    return .list items
  else
    let bytes ← decodeBytes
    return .string bytes

def RlpItem.decode : Read RlpItem := recursive RlpItem.decodeWith

instance : Decode RlpItem := ⟨RlpItem.decode⟩

end EthereumRust.Rlp
