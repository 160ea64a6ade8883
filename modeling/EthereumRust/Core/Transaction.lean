import EthereumRust.Rlp.Items

/-!
# Transactions (`crates/core`: `transaction.rs`, `eip7702.rs`)

An encoder calls `ethereum_rlp::encode` on each field, which gives `Bytes`, and passes the results
to `encode_list`, which encodes each of them once more as a byte string. The field `to` is
`toAddress` here.

`Transaction::decode` calls `Decoder::peek_bytes`, which `decode.rs` does not define, so what it
does is left open: results that involve it take `[Decode Transaction]` as a parameter.
-/

namespace EthereumRust.Core
open Rust Method Rlp

structure LegacyTransaction where
  nonce : U256
  gasPrice : U256
  gasLimit : U256
  toAddress : Option Address
  value : U256
  data : Bytes
  v : UInt64
  r : U256
  s : U256
  deriving DecidableEq

structure AccessListItem where
  address : Address
  storageKeys : List H256
  deriving DecidableEq

structure Eip2930Transaction where
  chainId : UInt64
  nonce : U256
  gasPrice : U256
  gasLimit : U256
  toAddress : Option Address
  value : U256
  data : Bytes
  accessList : List AccessListItem
  yParity : Bool
  r : U256
  s : U256
  deriving DecidableEq

structure Eip1559Transaction where
  chainId : UInt64
  nonce : U256
  maxPriorityFeePerGas : U256
  maxFeePerGas : U256
  gasLimit : U256
  toAddress : Option Address
  value : U256
  data : Bytes
  accessList : List AccessListItem
  yParity : Bool
  r : U256
  s : U256
  deriving DecidableEq

structure Eip4844Transaction where
  chainId : UInt64
  nonce : U256
  maxPriorityFeePerGas : U256
  maxFeePerGas : U256
  gasLimit : U256
  toAddress : Address
  value : U256
  data : Bytes
  accessList : List AccessListItem
  maxFeePerBlobGas : U256
  blobVersionedHashes : List H256
  yParity : Bool
  r : U256
  s : U256
  deriving DecidableEq

structure Authorization where
  chainId : UInt64
  address : Address
  nonce : U256
  yParity : Bool
  r : U256
  s : U256
  deriving DecidableEq

structure Eip7702Transaction where
  chainId : UInt64
  nonce : U256
  maxPriorityFeePerGas : U256
  maxFeePerGas : U256
  gasLimit : U256
  toAddress : Address
  value : U256
  data : Bytes
  accessList : List AccessListItem
  authorizationList : List Authorization
  yParity : Bool
  r : U256
  s : U256
  deriving DecidableEq

inductive Transaction where
  | legacy (tx : LegacyTransaction)
  | eip2930 (tx : Eip2930Transaction)
  | eip1559 (tx : Eip1559Transaction)
  | eip4844 (tx : Eip4844Transaction)
  | eip7702 (tx : Eip7702Transaction)
  deriving DecidableEq

def encodeH256List (list : List H256) : Bytes := encodeList list

instance : Encode LegacyTransaction where
  encode self := encodeList
    [encode self.nonce, encode self.gasPrice, encode self.gasLimit, encode self.toAddress,
      encode self.value, encode self.data, encode self.v, encode self.r, encode self.s]

instance : Encode AccessListItem where
  encode self := encodeList [encode self.address, encodeH256List self.storageKeys]

def encodeAccessList (list : List AccessListItem) : Bytes := encodeList list

instance : Encode Eip2930Transaction where
  encode self := encodeList
    [encode self.chainId, encode self.nonce, encode self.gasPrice, encode self.gasLimit,
      encode self.toAddress, encode self.value, encode self.data, encodeAccessList self.accessList,
      encode self.yParity, encode self.r, encode self.s]

instance : Encode Eip1559Transaction where
  encode self := encodeList
    [encode self.chainId, encode self.nonce, encode self.maxPriorityFeePerGas,
      encode self.maxFeePerGas, encode self.gasLimit, encode self.toAddress, encode self.value,
      encode self.data, encodeAccessList self.accessList, encode self.yParity, encode self.r,
      encode self.s]

instance : Encode Eip4844Transaction where
  encode self := encodeList
    [encode self.chainId, encode self.nonce, encode self.maxPriorityFeePerGas,
      encode self.maxFeePerGas, encode self.gasLimit, encode self.toAddress, encode self.value,
      encode self.data, encodeAccessList self.accessList, encode self.maxFeePerBlobGas,
      encodeH256List self.blobVersionedHashes, encode self.yParity, encode self.r, encode self.s]

instance : Encode Authorization where
  encode self := encodeList
    [encode self.chainId, encode self.address, encode self.nonce, encode self.yParity,
      encode self.r, encode self.s]

def Eip7702Transaction.encodeAuthorizationList (self : Eip7702Transaction) : Bytes :=
  encodeList self.authorizationList

instance : Encode Eip7702Transaction where
  encode self := encodeList
    [encode self.chainId, encode self.nonce, encode self.maxPriorityFeePerGas,
      encode self.maxFeePerGas, encode self.gasLimit, encode self.toAddress, encode self.value,
      encode self.data, encodeAccessList self.accessList, self.encodeAuthorizationList,
      encode self.yParity, encode self.r, encode self.s]

/-- A typed transaction is a byte string that begins with its type. -/
instance : Encode Transaction where
  encode
    | .legacy tx => encode tx
    | .eip2930 tx => encodeBytes (0x01 :: encode tx)
    | .eip1559 tx => encodeBytes (0x02 :: encode tx)
    | .eip4844 tx => encodeBytes (0x03 :: encode tx)
    | .eip7702 tx => encodeBytes (0x04 :: encode tx)

def decodeField (α : Type) [Decode α] (item : RlpItem) : Read α := fun self =>
  match decode α (encode item) with
  | .ok a _ => .ok a self
  | .err e _ => .err e self
  | .panic p => .panic p

instance : Decode LegacyTransaction where
  decode := do
    match ← decodeList RlpItem with
    | [nonce, gasPrice, gasLimit, toAddress, value, data, v, r, s] => do
      let nonce ← decodeField U256 nonce
      let gasPrice ← decodeField U256 gasPrice
      let gasLimit ← decodeField U256 gasLimit
      let toAddress ← decodeField (Option Address) toAddress
      let value ← decodeField U256 value
      let data ← decodeField Bytes data
      let v ← decodeField UInt64 v
      let r ← decodeField U256 r
      let s ← decodeField U256 s
      return { nonce, gasPrice, gasLimit, toAddress, value, data, v, r, s }
    | items =>
      fail (.invalidData s!"Expected 9 items for legacy transaction, got {items.length}")

instance : Decode AccessListItem where
  decode := do
    let address ← Decode.decode
    let storageKeys ← decodeList H256
    return { address, storageKeys }

instance : Decode Eip2930Transaction where
  decode := do
    let chainId ← Decode.decode
    let nonce ← Decode.decode
    let gasPrice ← Decode.decode
    let gasLimit ← Decode.decode
    let toAddress ← Decode.decode
    let value ← Decode.decode
    let data ← Decode.decode
    let accessList ← decodeList AccessListItem
    let yParity ← Decode.decode
    let r ← Decode.decode
    let s ← Decode.decode
    return { chainId, nonce, gasPrice, gasLimit, toAddress, value, data, accessList, yParity, r, s }

instance : Decode Eip1559Transaction where
  decode := do
    let chainId ← Decode.decode
    let nonce ← Decode.decode
    let maxPriorityFeePerGas ← Decode.decode
    let maxFeePerGas ← Decode.decode
    let gasLimit ← Decode.decode
    let toAddress ← Decode.decode
    let value ← Decode.decode
    let data ← Decode.decode
    let accessList ← decodeList AccessListItem
    let yParity ← Decode.decode
    let r ← Decode.decode
    let s ← Decode.decode
    return { chainId, nonce, maxPriorityFeePerGas, maxFeePerGas, gasLimit, toAddress, value, data,
             accessList, yParity, r, s }

instance : Decode Eip4844Transaction where
  decode := do
    let chainId ← Decode.decode
    let nonce ← Decode.decode
    let maxPriorityFeePerGas ← Decode.decode
    let maxFeePerGas ← Decode.decode
    let gasLimit ← Decode.decode
    let toAddress ← Decode.decode
    let value ← Decode.decode
    let data ← Decode.decode
    let accessList ← decodeList AccessListItem
    let maxFeePerBlobGas ← Decode.decode
    let blobVersionedHashes ← decodeList H256
    let yParity ← Decode.decode
    let r ← Decode.decode
    let s ← Decode.decode
    return { chainId, nonce, maxPriorityFeePerGas, maxFeePerGas, gasLimit, toAddress, value, data,
             accessList, maxFeePerBlobGas, blobVersionedHashes, yParity, r, s }

instance : Decode Authorization where
  decode := do
    let chainId ← Decode.decode
    let address ← Decode.decode
    let nonce ← Decode.decode
    let yParity ← Decode.decode
    let r ← Decode.decode
    let s ← Decode.decode
    return { chainId, address, nonce, yParity, r, s }

instance : Decode Eip7702Transaction where
  decode := do
    let chainId ← Decode.decode
    let nonce ← Decode.decode
    let maxPriorityFeePerGas ← Decode.decode
    let maxFeePerGas ← Decode.decode
    let gasLimit ← Decode.decode
    let toAddress ← Decode.decode
    let value ← Decode.decode
    let data ← Decode.decode
    let accessList ← decodeList AccessListItem
    let authorizationList ← decodeList Authorization
    let yParity ← Decode.decode
    let r ← Decode.decode
    let s ← Decode.decode
    return { chainId, nonce, maxPriorityFeePerGas, maxFeePerGas, gasLimit, toAddress, value, data,
             accessList, authorizationList, yParity, r, s }

end EthereumRust.Core
