import EthereumRust.Core.Transaction
import EthereumRust.Crypto

/-!
# Hashes and senders (`crates/core`: `transaction.rs`, `eip7702.rs`)

What other crates read off a transaction: its hash, the address recovered from its signature, and
the fields that all five types have. The sender of a legacy transaction with `v` below 27 panics.
-/

namespace EthereumRust.Core
open Rust Rlp

inductive TransactionError where
  | invalidSignature
  | crypto (error : CryptoError)
  deriving DecidableEq, Repr

section
variable [Crypto]

def LegacyTransaction.hash (self : LegacyTransaction) : H256 := keccak256 (encode self)

def Eip2930Transaction.hash (self : Eip2930Transaction) : H256 := keccak256 (0x01 :: encode self)

def Eip1559Transaction.hash (self : Eip1559Transaction) : H256 := keccak256 (0x02 :: encode self)

def Eip4844Transaction.hash (self : Eip4844Transaction) : H256 := keccak256 (0x03 :: encode self)

def Eip7702Transaction.hash (self : Eip7702Transaction) : H256 := keccak256 (0x04 :: encode self)

def LegacyTransaction.signingHash (self : LegacyTransaction) (chainId : Option UInt64) : H256 :=
  let fields :=
    [encode self.nonce, encode self.gasPrice, encode self.gasLimit, encode self.toAddress,
      encode self.value, encode self.data]
  match chainId with
  | some chainId =>
    keccak256 (encodeList (fields ++ [encode chainId, encode (0 : UInt8), encode (0 : UInt8)]))
  | none => keccak256 (encodeList fields)

def Eip2930Transaction.signingHash (self : Eip2930Transaction) : H256 :=
  keccak256 <| 0x01 :: encodeList
    [encode self.chainId, encode self.nonce, encode self.gasPrice, encode self.gasLimit,
      encode self.toAddress, encode self.value, encode self.data, encodeAccessList self.accessList]

def Eip1559Transaction.signingHash (self : Eip1559Transaction) : H256 :=
  keccak256 <| 0x02 :: encodeList
    [encode self.chainId, encode self.nonce, encode self.maxPriorityFeePerGas,
      encode self.maxFeePerGas, encode self.gasLimit, encode self.toAddress, encode self.value,
      encode self.data, encodeAccessList self.accessList]

def Eip4844Transaction.signingHash (self : Eip4844Transaction) : H256 :=
  keccak256 <| 0x03 :: encodeList
    [encode self.chainId, encode self.nonce, encode self.maxPriorityFeePerGas,
      encode self.maxFeePerGas, encode self.gasLimit, encode self.toAddress, encode self.value,
      encode self.data, encodeAccessList self.accessList, encode self.maxFeePerBlobGas,
      encodeH256List self.blobVersionedHashes]

def Eip7702Transaction.signingHash (self : Eip7702Transaction) : H256 :=
  keccak256 <| 0x04 :: encodeList
    [encode self.chainId, encode self.nonce, encode self.maxPriorityFeePerGas,
      encode self.maxFeePerGas, encode self.gasLimit, encode self.toAddress, encode self.value,
      encode self.data, encodeAccessList self.accessList, self.encodeAuthorizationList]

variable [Recovery]

def LegacyTransaction.sender (self : LegacyTransaction) :
    Checked (Except TransactionError Address) := do
  let chainId := if 35 ≤ self.v then some ((self.v - 35) / 2) else none
  let v ← if 35 ≤ self.v then .ok ((self.v - 35) % 2) else subU64 self.v 27
  let signature := ⟨H256.ofU256 self.r, H256.ofU256 self.s, v.toUInt8 + 27⟩
  return (recoverAddress (self.signingHash chainId) signature).mapError .crypto

def senderOf (signingHash : H256) (yParity : Bool) (r s : U256) : Except TransactionError Address :=
  let signature := ⟨H256.ofU256 r, H256.ofU256 s, if yParity then 28 else 27⟩
  (recoverAddress signingHash signature).mapError .crypto

def Eip2930Transaction.sender (self : Eip2930Transaction) : Except TransactionError Address :=
  senderOf self.signingHash self.yParity self.r self.s

def Eip1559Transaction.sender (self : Eip1559Transaction) : Except TransactionError Address :=
  senderOf self.signingHash self.yParity self.r self.s

def Eip4844Transaction.sender (self : Eip4844Transaction) : Except TransactionError Address :=
  senderOf self.signingHash self.yParity self.r self.s

/-- The error is the one that `Transaction::sender` makes of `Eip7702Error`. -/
def Eip7702Transaction.sender (self : Eip7702Transaction) : Except TransactionError Address :=
  let recoveryId := if self.yParity then 1 else 0
  (recoverAddressOfParts self.signingHash recoveryId (H256.ofU256 self.r)
    (H256.ofU256 self.s)).mapError fun _ => .invalidSignature

namespace Transaction

def hash : Transaction → H256
  | .legacy tx => tx.hash
  | .eip2930 tx => tx.hash
  | .eip1559 tx => tx.hash
  | .eip4844 tx => tx.hash
  | .eip7702 tx => tx.hash

def sender : Transaction → Checked (Except TransactionError Address)
  | .legacy tx => tx.sender
  | .eip2930 tx => .ok tx.sender
  | .eip1559 tx => .ok tx.sender
  | .eip4844 tx => .ok tx.sender
  | .eip7702 tx => .ok tx.sender

/-- `from`: the sender, or the zero address when none can be recovered. -/
def fromAddress (self : Transaction) : Checked Address := do
  match ← self.sender with
  | .ok address => return address
  | .error _ => return Address.zero

end Transaction

end

namespace Transaction

def nonce : Transaction → U256
  | .legacy tx => tx.nonce
  | .eip2930 tx => tx.nonce
  | .eip1559 tx => tx.nonce
  | .eip4844 tx => tx.nonce
  | .eip7702 tx => tx.nonce

def gasPrice : Transaction → U256
  | .legacy tx => tx.gasPrice
  | .eip2930 tx => tx.gasPrice
  | .eip1559 tx => tx.maxFeePerGas
  | .eip4844 tx => tx.maxFeePerGas
  | .eip7702 tx => tx.maxFeePerGas

def gasLimit : Transaction → U256
  | .legacy tx => tx.gasLimit
  | .eip2930 tx => tx.gasLimit
  | .eip1559 tx => tx.gasLimit
  | .eip4844 tx => tx.gasLimit
  | .eip7702 tx => tx.gasLimit

end Transaction

end EthereumRust.Core
