import EthereumRust.Core.Transaction
import EthereumRust.Crypto

/-!
# Blocks (`crates/core`: `block.rs`)

Headers, withdrawals and blocks with their RLP encoders and decoders. The encoders of this file do
not call `encode_list`: they pass the list header, the length and the payload to `encode_bytes`,
each of which thus becomes a byte string. The decoders read one item with `decode_item`, take it for
a list and decode its items one after the other, each from its own encoding.
-/

namespace EthereumRust.Core
open Rust Method Rlp

structure Header where
  parentHash : H256
  ommersHash : H256
  beneficiary : Address
  stateRoot : H256
  transactionsRoot : H256
  receiptsRoot : H256
  logsBloom : Bloom
  difficulty : U256
  number : U256
  gasLimit : U256
  gasUsed : U256
  timestamp : UInt64
  extraData : Bytes
  mixHash : H256
  nonce : UInt64
  baseFeePerGas : Option U256
  blobGasUsed : Option UInt64
  excessBlobGas : Option UInt64
  parentBeaconBlockRoot : Option H256
  withdrawalsRoot : Option H256
  deriving DecidableEq

def Header.new : Header where
  parentHash := .zero
  ommersHash := .zero
  beneficiary := Address.zero
  stateRoot := .zero
  transactionsRoot := .zero
  receiptsRoot := .zero
  logsBloom := ⟨List.replicate 256 0, List.length_replicate⟩
  difficulty := 0
  number := 0
  gasLimit := 0
  gasUsed := 0
  timestamp := 0
  extraData := []
  mixHash := .zero
  nonce := 0
  baseFeePerGas := none
  blobGasUsed := none
  excessBlobGas := none
  parentBeaconBlockRoot := none
  withdrawalsRoot := none

structure Withdrawal where
  index : UInt64
  validatorIndex : UInt64
  address : Address
  amount : UInt64
  deriving DecidableEq

structure Block where
  header : Header
  transactions : List Transaction
  ommers : List Header
  withdrawals : Option (List Withdrawal)
  deriving DecidableEq

def Block.new (header : Header) : Block where
  header
  transactions := []
  ommers := []
  withdrawals := none

def encodeAsList (listBytes : Bytes) : Bytes :=
  if listBytes.length < 56 then
    encodeBytes [.ofNat (0xc0 + listBytes.length)] ++ encodeBytes listBytes
  else
    let lenBytes := encodeLength listBytes.length
    encodeBytes [.ofNat (0xf7 + lenBytes.length)] ++ encodeBytes lenBytes ++ encodeBytes listBytes

/-- `if let Some(field) = &self.field { field.encode(&mut list_encoder); }`. -/
def encodeIfSome [Encode α] : Option α → Bytes
  | some value => encode value
  | none => []

def Header.listBytes (self : Header) : Bytes :=
  encode self.parentHash ++ encode self.ommersHash ++ encode self.beneficiary ++
  encode self.stateRoot ++ encode self.transactionsRoot ++ encode self.receiptsRoot ++
  encode self.logsBloom ++ encode self.difficulty ++ encode self.number ++
  encode self.gasLimit ++ encode self.gasUsed ++ encode self.timestamp ++
  encode self.extraData ++ encode self.mixHash ++ encode self.nonce ++
  encodeIfSome self.baseFeePerGas ++ encodeIfSome self.withdrawalsRoot ++
  encodeIfSome self.blobGasUsed ++ encodeIfSome self.excessBlobGas ++
  encodeIfSome self.parentBeaconBlockRoot

instance : Encode Header := ⟨fun self => encodeAsList self.listBytes⟩

def Header.hash [Crypto] (self : Header) : H256 := keccak256 (encode self)

instance : Encode Withdrawal where
  encode self := encodeAsList <|
    encode self.index ++ encode self.validatorIndex ++ encode self.address ++ encode self.amount

def encodeVec [Encode α] (items : List α) : Bytes := encodeAsList (items.flatMap encode)

def Block.listBytes (self : Block) : Bytes :=
  encode self.header ++ encodeVec self.transactions ++ encodeVec self.ommers ++
  match self.withdrawals with
  | some withdrawals => encodeVec withdrawals
  | none => []

instance : Encode Block := ⟨fun self => encodeAsList self.listBytes⟩

mutual

def encodeRlpItem : RlpItem → Bytes
  | .string bytes => encodeBytes bytes
  | .list items => encodeAsList (encodeRlpItems items)

def encodeRlpItems : List RlpItem → Bytes
  | [] => []
  | item :: items => encodeRlpItem item ++ encodeRlpItems items

end

structure ListDecoder where
  items : List RlpItem
  position : Nat

namespace ListDecoder

/-- Encode an item again and decode it as an `α`. -/
def reencoded (α : Type) [Decode α] (item : RlpItem) : Method ListDecoder RlpError α := fun self =>
  match Rlp.decode α (encodeRlpItem item) with
  | .ok a _ => .ok a self
  | .err e _ => .err e self
  | .panic p => .panic p

def decode (α : Type) [Decode α] : Method ListDecoder RlpError α := do
  let self ← read id
  match self.items[self.position]? with
  | none => fail eof
  | some item =>
    update fun self => { self with position := self.position + 1 }
    reencoded α item

def isFinished (self : ListDecoder) : Bool := self.items.length ≤ self.position

/-- `if !list.is_finished() { Some(list.decode()?) } else { None }`. -/
def decodeOptional (α : Type) [Decode α] : Method ListDecoder RlpError (Option α) := do
  if !(← read isFinished) then
    let value ← decode α
    return some value
  else return none

def decodeItems (α : Type) [Decode α] (name : String) : Method ListDecoder RlpError (List α) := do
  let self ← read id
  match self.items[self.position]? with
  | none => checked (.error .slice)
  | some item =>
    update fun self => { self with position := self.position + 1 }
    match item.asList with
    | none => fail (.invalidData s!"Expected list for {name}")
    | some items => items.mapM (reencoded α)

def run (body : Method ListDecoder RlpError α) (items : List RlpItem) : Read α := fun self =>
  match body (ListDecoder.mk items 0) with
  | .ok a _ => .ok a self
  | .err e _ => .err e self
  | .panic p => .panic p

end ListDecoder

/-- `let mut list = ListDecoder::new(decoder)?;` and a body that works on `list`. -/
def withListDecoder (body : Method ListDecoder RlpError α) : Read α := do
  let item ← decodeItem
  match item.asList with
  | none => fail (.invalidData "Expected list")
  | some items => ListDecoder.run body items

def Header.decodeFields : Method ListDecoder RlpError Header := do
  let parentHash ← ListDecoder.decode H256
  let ommersHash ← ListDecoder.decode H256
  let beneficiary ← ListDecoder.decode Address
  let stateRoot ← ListDecoder.decode H256
  let transactionsRoot ← ListDecoder.decode H256
  let receiptsRoot ← ListDecoder.decode H256
  let logsBloom ← ListDecoder.decode Bloom
  let difficulty ← ListDecoder.decode U256
  let number ← ListDecoder.decode U256
  let gasLimit ← ListDecoder.decode U256
  let gasUsed ← ListDecoder.decode U256
  let timestamp ← ListDecoder.decode UInt64
  let extraData ← ListDecoder.decode Bytes
  let mixHash ← ListDecoder.decode H256
  let nonce ← ListDecoder.decode UInt64
  let baseFeePerGas ← ListDecoder.decodeOptional U256
  let withdrawalsRoot ← ListDecoder.decodeOptional H256
  let blobGasUsed ← ListDecoder.decodeOptional UInt64
  let excessBlobGas ← ListDecoder.decodeOptional UInt64
  let parentBeaconBlockRoot ← ListDecoder.decodeOptional H256
  return { parentHash, ommersHash, beneficiary, stateRoot, transactionsRoot, receiptsRoot,
           logsBloom, difficulty, number, gasLimit, gasUsed, timestamp, extraData, mixHash,
           nonce, baseFeePerGas, withdrawalsRoot, blobGasUsed, excessBlobGas,
           parentBeaconBlockRoot }

instance : Decode Header := ⟨withListDecoder Header.decodeFields⟩

instance : Decode Withdrawal where
  decode := withListDecoder do
    let index ← ListDecoder.decode UInt64
    let validatorIndex ← ListDecoder.decode UInt64
    let address ← ListDecoder.decode Address
    let amount ← ListDecoder.decode UInt64
    return { index, validatorIndex, address, amount }

def Block.decodeFields [Decode Transaction] : Method ListDecoder RlpError Block := do
  let header ← ListDecoder.decode Header
  let transactions ← ListDecoder.decodeItems Transaction "transactions"
  let ommers ← ListDecoder.decodeItems Header "ommers"
  if !(← read ListDecoder.isFinished) then
    let withdrawals ← ListDecoder.decodeItems Withdrawal "withdrawals"
    return { header, transactions, ommers, withdrawals := some withdrawals }
  else return { header, transactions, ommers, withdrawals := none }

instance [Decode Transaction] : Decode Block := ⟨withListDecoder Block.decodeFields⟩

theorem encodeBytes_singleton (h : 0x80 ≤ b.toNat) : encodeBytes [b] = [0x81, b] := by
  have hb : ¬b < 0x80 := fun hlt => absurd (UInt8.lt_iff_toNat_lt.mp hlt) (not_lt.mpr h)
  rw [encodeBytes, if_neg hb]
  rfl

theorem encodeAsList_eq : ∃ byte tail, encodeAsList listBytes = 0x81 :: byte :: tail := by
  have hlen := length_encodeLength listBytes.length
  have hbyte {n : Nat} (h1 : 0x80 ≤ n) (h2 : n < 256) : 0x80 ≤ (UInt8.ofNat n).toNat := by
    rwa [UInt8.toNat_ofNat', Nat.mod_eq_of_lt h2]
  unfold encodeAsList
  split_ifs with h
  · rw [encodeBytes_singleton (hbyte (by omega) (by omega))]
    exact ⟨_, _, rfl⟩
  · dsimp only
    rw [encodeBytes_singleton (hbyte (by omega) (by omega))]
    exact ⟨_, _, rfl⟩

theorem withListDecoder_ne_ok : withListDecoder body (.new (encodeAsList listBytes)) ≠ .ok a d := by
  intro h
  obtain ⟨item, d₁, hitem, h⟩ := bind_eq_ok.mp h
  obtain ⟨byte, tail, heq⟩ := encodeAsList_eq
  have hhd : readHeader (encodeAsList listBytes) = .ok (1, 1, true) := by
    rw [heq]
    simp [readHeader]
  obtain ⟨s, rfl⟩ := decodeItem_string hitem hhd
  exact absurd h fail_ne_ok

theorem Header.decode_eq (data : Bytes) :
    decode Header data = withListDecoder Header.decodeFields (.new data) := rfl

theorem Block.decode_eq [Decode Transaction] (data : Bytes) :
    decode Block data = withListDecoder Block.decodeFields (.new data) := rfl

/-- No encoded header and no encoded block can be decoded, whatever the optional fields, the
transactions, the uncles and the withdrawals are. -/
theorem block_decode_encode_never [Decode Transaction] :
    (∀ (header header' : Header) (d : Decoder), decode Header (encode header) ≠ .ok header' d) ∧
      ∀ (block block' : Block) (d : Decoder), decode Block (encode block) ≠ .ok block' d := by
  constructor
  · intro header header' d
    rw [Header.decode_eq]
    exact withListDecoder_ne_ok
  · intro block block' d
    rw [Block.decode_eq]
    exact withListDecoder_ne_ok

/-- The list header is encoded as a string, and a string is what the decoder finds. -/
theorem new_header_rejected :
    decode Header (encode Header.new) =
      .err (.invalidData "Expected list") ⟨encode Header.new, 2⟩ := by
  decide +kernel

end EthereumRust.Core
