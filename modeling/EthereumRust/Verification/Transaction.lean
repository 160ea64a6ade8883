import EthereumRust.Verification.Header
import EthereumRust.Lib.Blocks

/-!
# Transactions (`crates/verification/src/transaction.rs`)

The crate reads a transaction as one record of optional fields, which is not the enumeration of
`crates/core`. What is signed is the concatenation of some of them, with no tag and no length: the
type and the access list are left out, of the fees only those that come first are written, and a
missing field leaves no trace.
-/

namespace EthereumRust.Verification

open Rust EthereumRust.Core List

@[ext] structure UnsignedTransaction where
  nonce : UInt64
  gasPrice : Option U256
  maxFeePerGas : Option U256
  maxPriorityFeePerGas : Option U256
  gasLimit : U256
  toAddress : Option Address
  value : U256
  input : Bytes
  chainId : Option UInt64
  accessList : Option (List AccessListItem)
  transactionType : UInt8
  deriving DecidableEq

structure Transaction extends UnsignedTransaction where
  signature : Signature
  deriving DecidableEq

/-- `Signature::is_valid`, which the crate calls and none defines. -/
class SignatureCheck where
  isValid : Signature → Bool

structure TransactionVerifier where
  chainId : UInt64

def toLeBytes (width n : Nat) : Bytes := (toBigEndian width n).reverse

namespace UnsignedTransaction

def signedFees (tx : UnsignedTransaction) : List U256 :=
  match tx.gasPrice with
  | some gasPrice => [gasPrice]
  | none =>
    match tx.maxFeePerGas with
    | some maxFee =>
      match tx.maxPriorityFeePerGas with
      | some priorityFee => [maxFee, priorityFee]
      | none => [maxFee]
    | none => []

def addressBytes : Option Address → Bytes
  | some address => address.toList
  | none => []

def chainIdBytes : Option UInt64 → Bytes
  | some chainId => toLeBytes 8 chainId.toNat
  | none => []

/-- The bytes that the signing hash is taken of. -/
def preimage (tx : UnsignedTransaction) : Bytes :=
  toLeBytes 8 tx.nonce.toNat ++
    (tx.signedFees.flatMap fun fee => toLeBytes 32 fee.toNat) ++
    toLeBytes 32 tx.gasLimit.toNat ++
    addressBytes tx.toAddress ++
    toLeBytes 32 tx.value.toNat ++
    tx.input ++
    chainIdBytes tx.chainId

end UnsignedTransaction

namespace TransactionVerifier

def signingHash [Crypto] (tx : Transaction) : H256 := keccak256 tx.preimage

def recoverSender [Crypto] [Recovery] (tx : Transaction) : Call VerificationError Address :=
  match recoverAddress (signingHash tx) tx.signature with
  | .ok sender => .ok sender
  | .error _ => Call.fail (.invalidTransaction "Failed to recover sender")

def verifySignature [Crypto] [Recovery] [SignatureCheck] (tx : Transaction) :
    Call VerificationError Unit := do
  if !SignatureCheck.isValid tx.signature then
    Call.fail (.invalidTransaction "Invalid signature")
  else
    let sender ← recoverSender tx
    if sender = Address.zero then Call.fail (.invalidTransaction "Sender is zero address")
    else .ok ()

def verifyChainId (self : TransactionVerifier) (tx : Transaction) : Call VerificationError Unit :=
  if tx.transactionType = 0 then .ok ()
  else
    match tx.chainId with
    | some chainId =>
      if chainId ≠ self.chainId then
        Call.fail (.invalidTransaction ("Wrong chain ID: expected " ++ toString self.chainId ++
          ", got " ++ toString chainId))
      else .ok ()
    | none =>
      if 0 < tx.transactionType then
        Call.fail (.invalidTransaction "Missing chain ID for typed transaction")
      else .ok ()

def verifyFees (tx : Transaction) : Call VerificationError Unit :=
  match tx.transactionType with
  | 0 | 1 =>
    if tx.gasPrice = none ∨ tx.gasPrice = some 0 then
      Call.fail (.invalidTransaction "Gas price cannot be zero")
    else .ok ()
  | 2 =>
    match tx.maxFeePerGas, tx.maxPriorityFeePerGas with
    | some maxFee, some priorityFee =>
      if maxFee < priorityFee then
        Call.fail (.invalidTransaction "Max fee less than priority fee")
      else .ok ()
    | _, _ => Call.fail (.invalidTransaction "Missing EIP-1559 gas parameters")
  | _ =>
    Call.fail (.invalidTransaction ("Unknown transaction type: " ++ toString tx.transactionType))

def verifyGasParameters (tx : Transaction) : Call VerificationError Unit :=
  if tx.gasLimit < .ofNat 256 21000 then
    Call.fail (.invalidTransaction
      ("Gas limit too low: " ++ toString tx.gasLimit.toNat ++ " < 21000"))
  else if .ofNat 256 30000000 < tx.gasLimit then
    Call.fail (.invalidTransaction
      ("Gas limit too high: " ++ toString tx.gasLimit.toNat ++ " > 30000000"))
  else verifyFees tx

def verifyTransactionType (tx : Transaction) : Call VerificationError Unit :=
  if 2 < tx.transactionType then
    Call.fail (.invalidTransaction
      ("Unsupported transaction type: " ++ toString tx.transactionType))
  else if 1 ≤ tx.transactionType ∧ tx.accessList = none then
    Call.fail (.invalidTransaction "Missing access list for typed transaction")
  else .ok ()

def verifyNonce (tx : Transaction) : Call VerificationError Unit :=
  if u64Max / 2 < tx.nonce then
    Call.fail (.invalidTransaction ("Nonce too high: " ++ toString tx.nonce ++ " > " ++
      toString (u64Max / 2)))
  else .ok ()

def verify [Crypto] [Recovery] [SignatureCheck] (self : TransactionVerifier) (tx : Transaction) :
    Call VerificationError Unit := do
  verifySignature tx
  self.verifyChainId tx
  verifyGasParameters tx
  verifyTransactionType tx
  verifyNonce tx

end TransactionVerifier

theorem length_toLeBytes : (toLeBytes width n).length = width := by
  simp [toLeBytes]

theorem toLeBytes_inj (hn : n < 256 ^ width) (hn' : n' < 256 ^ width) :
    toLeBytes width n = toLeBytes width n' ↔ n = n' := by
  constructor
  · intro h
    rw [← ofBigEndian_toBigEndian hn, ← ofBigEndian_toBigEndian hn', reverse_injective h]
  · exact congrArg _

theorem toLeBytes_u64_inj {n n' : UInt64} :
    toLeBytes 8 n.toNat = toLeBytes 8 n'.toNat ↔ n = n' := by
  rw [toLeBytes_inj n.toNat_lt n'.toNat_lt, UInt64.toNat_inj]

theorem toLeBytes_u256_inj {x x' : U256} :
    toLeBytes 32 x.toNat = toLeBytes 32 x'.toNat ↔ x = x' := by
  rw [toLeBytes_inj x.isLt x'.isLt, BitVec.toNat_inj]

theorem flatMap_toLeBytes_inj {fees fees' : List U256} (hlen : fees.length = fees'.length)
    (h : (fees.flatMap fun fee => toLeBytes 32 fee.toNat) =
      fees'.flatMap fun fee => toLeBytes 32 fee.toNat) : fees = fees' := by
  have hblo := Blocks.forall₂_of_flatMap_eq
    (forall₂_iff_zip.mpr ⟨hlen, fun _ => by rw [length_toLeBytes, length_toLeBytes]⟩) h
  exact forall₂_eq_eq_eq ▸ hblo.imp fun _ _ => toLeBytes_u256_inj.mp

namespace UnsignedTransaction

structure Aligned (tx tx' : UnsignedTransaction) : Prop where
  fees : tx.signedFees.length = tx'.signedFees.length
  toAddress : tx.toAddress.isSome = tx'.toAddress.isSome
  chainId : tx.chainId.isSome = tx'.chainId.isSome

/-- The length of the signed bytes, apart from the fields that are always there. -/
def signedLength (tx : UnsignedTransaction) : Nat :=
  32 * tx.signedFees.length + (if tx.toAddress.isSome then 20 else 0) + tx.input.length +
    if tx.chainId.isSome then 8 else 0

structure SameSigned (tx tx' : UnsignedTransaction) : Prop where
  nonce : tx.nonce = tx'.nonce
  fees : tx.signedFees = tx'.signedFees
  gasLimit : tx.gasLimit = tx'.gasLimit
  toAddress : tx.toAddress = tx'.toAddress
  value : tx.value = tx'.value
  input : tx.input = tx'.input
  chainId : tx.chainId = tx'.chainId

structure SameUnsigned (tx tx' : UnsignedTransaction) : Prop where
  transactionType : tx.transactionType = tx'.transactionType
  accessList : tx.accessList = tx'.accessList
  maxFeePerGas : tx.gasPrice.isSome → tx.maxFeePerGas = tx'.maxFeePerGas
  maxPriorityFeePerGas : tx.gasPrice.isSome → tx.maxPriorityFeePerGas = tx'.maxPriorityFeePerGas

section
variable {tx tx' : UnsignedTransaction}

theorem optional_inj {α : Type} {bytes : Option α → Bytes}
    (hinj : ∀ a b, bytes (some a) = bytes (some b) → a = b) {field field' : Option α}
    (h : field.isSome = field'.isSome) (heq : bytes field = bytes field') : field = field' := by
  cases field with
  | none =>
    cases field' with
    | none => rfl
    | some _ => cases h
  | some a =>
    cases field' with
    | none => cases h
    | some b => rw [hinj a b heq]

theorem length_addressBytes (addr : Option Address) :
    (addressBytes addr).length = if addr.isSome then 20 else 0 := by
  cases addr with
  | none => rfl
  | some addr => exact addr.toList_length

theorem length_chainIdBytes (chainId : Option UInt64) :
    (chainIdBytes chainId).length = if chainId.isSome then 8 else 0 := by
  cases chainId with
  | none => rfl
  | some => exact length_toLeBytes

theorem addressBytes_inj (h : addr.isSome = addr'.isSome)
    (heq : addressBytes addr = addressBytes addr') : addr = addr' :=
  optional_inj (fun _ _ heq => Subtype.ext heq) h heq

theorem chainIdBytes_inj {chainId chainId' : Option UInt64} (h : chainId.isSome = chainId'.isSome)
    (heq : chainIdBytes chainId = chainIdBytes chainId') : chainId = chainId' :=
  optional_inj (fun _ _ heq => toLeBytes_u64_inj.mp heq) h heq

theorem length_fees (h : tx.signedFees.length = tx'.signedFees.length) :
    (tx.signedFees.flatMap fun fee => toLeBytes 32 fee.toNat).length =
      (tx'.signedFees.flatMap fun fee => toLeBytes 32 fee.toNat).length := by
  simp [length_flatMap, length_toLeBytes, h]

theorem length_preimage (tx : UnsignedTransaction) : tx.preimage.length = 72 + tx.signedLength := by
  simp only [preimage, length_append, length_flatMap, length_toLeBytes, length_addressBytes,
    length_chainIdBytes, signedLength, map_const', sum_replicate_nat]
  omega

theorem preimage_congr (h : SameSigned tx tx') : tx.preimage = tx'.preimage := by
  rw [preimage, preimage, h.nonce, h.fees, h.gasLimit, h.toAddress, h.value, h.input, h.chainId]

theorem preimage_eq_iff (h : Aligned tx tx') : tx.preimage = tx'.preimage ↔ SameSigned tx tx' := by
  refine ⟨fun heq => ?_, preimage_congr⟩
  obtain ⟨heq, hcha⟩ := append_inj' heq (by simp only [length_chainIdBytes, h.chainId])
  obtain ⟨heq, hinp⟩ := append_inj heq (by
    simp only [length_append, length_toLeBytes, length_fees h.fees, length_addressBytes,
      h.toAddress])
  obtain ⟨heq, hval⟩ := append_inj' heq (by simp only [length_toLeBytes])
  obtain ⟨heq, htoA⟩ := append_inj' heq (by simp only [length_addressBytes, h.toAddress])
  obtain ⟨heq, hgas⟩ := append_inj' heq (by simp only [length_toLeBytes])
  obtain ⟨hnon, hfees⟩ := append_inj' heq (length_fees h.fees)
  exact {
    nonce := toLeBytes_u64_inj.mp hnon
    fees := flatMap_toLeBytes_inj h.fees hfees
    gasLimit := toLeBytes_u256_inj.mp hgas
    toAddress := addressBytes_inj h.toAddress htoA
    value := toLeBytes_u256_inj.mp hval
    input := hinp
    chainId := chainIdBytes_inj h.chainId hcha }

def Priced (tx : UnsignedTransaction) : Prop :=
  (∃ gasPrice, tx.gasPrice = some gasPrice) ∨ tx.gasPrice = none ∧
    ∃ maxFee priorityFee, tx.maxFeePerGas = some maxFee ∧ tx.maxPriorityFeePerGas = some priorityFee

theorem fees_eq_of_signedFees_eq (h : Priced tx) (h' : Priced tx')
    (heq : tx.signedFees = tx'.signedFees) :
    tx.gasPrice = tx'.gasPrice ∧ (tx.gasPrice = none →
      tx.maxFeePerGas = tx'.maxFeePerGas ∧ tx.maxPriorityFeePerGas = tx'.maxPriorityFeePerGas) := by
  rcases h with ⟨gasPrice, h⟩ | ⟨h, maxFee, priorityFee, hmax, hpri⟩ <;>
    rcases h' with ⟨gasPrice', h'⟩ | ⟨h', maxFee', priorityFee', hmax', hpri'⟩
  · simp [signedFees, h, h'] at heq
    simp [h, h', heq]
  · simp [signedFees, h, h', hmax', hpri'] at heq
  · simp [signedFees, h, h', hmax, hpri] at heq
  · simp [signedFees, h, h', hmax, hpri, hmax', hpri'] at heq
    simp [h, h', hmax, hpri, hmax', hpri', heq]

theorem eq_of_sameSigned (h : Priced tx) (h' : Priced tx') (hsgn : SameSigned tx tx')
    (huns : SameUnsigned tx tx') : tx = tx' := by
  obtain ⟨hgas, hfees⟩ := fees_eq_of_signedFees_eq h h' hsgn.fees
  have hunr : tx.maxFeePerGas = tx'.maxFeePerGas ∧
      tx.maxPriorityFeePerGas = tx'.maxPriorityFeePerGas := by
    cases hprc : tx.gasPrice with
    | none => exact hfees hprc
    | some gasPrice =>
      have hsome : tx.gasPrice.isSome = true := Option.isSome_of_eq_some hprc
      exact ⟨huns.maxFeePerGas hsome, huns.maxPriorityFeePerGas hsome⟩
  exact UnsignedTransaction.ext hsgn.nonce hgas hunr.1 hunr.2 hsgn.gasLimit
    hsgn.toAddress hsgn.value hsgn.input hsgn.chainId huns.accessList
    huns.transactionType

end

end UnsignedTransaction

namespace TransactionVerifier
open UnsignedTransaction

theorem priced_of_verifyFees (h : verifyFees tx = .ok ()) : Priced tx.toUnsignedTransaction := by
  rw [verifyFees] at h
  have hprc (h : (if tx.gasPrice = none ∨ tx.gasPrice = some 0 then
      Call.fail (.invalidTransaction "Gas price cannot be zero")
    else .ok () : Call VerificationError Unit) = .ok ()) : Priced tx.toUnsignedTransaction := by
    have hne := fun hnone => (Call.guard_eq_ok.mp h).1 (.inl hnone)
    exact .inl (Option.ne_none_iff_exists'.mp hne)
  split at h
  · exact hprc h
  · exact hprc h
  · cases hgas : tx.gasPrice with
    | some gasPrice => exact .inl ⟨gasPrice, hgas⟩
    | none =>
      split at h
      · next maxFee priorityFee hmax hpri =>
        exact .inr ⟨hgas, maxFee, priorityFee, hmax, hpri⟩
      · cases h
  · cases h

section
variable [Crypto] [Recovery] [SignatureCheck]

theorem priced_of_verify {s : TransactionVerifier}
    (h : s.verify tx = .ok ()) : Priced tx.toUnsignedTransaction := by
  obtain ⟨-, h⟩ := Call.check_bind_eq_ok.mp h
  obtain ⟨-, h⟩ := Call.check_bind_eq_ok.mp h
  obtain ⟨hgas, -⟩ := Call.check_bind_eq_ok.mp h
  obtain ⟨-, hgas⟩ := Call.guard_eq_ok.mp hgas
  obtain ⟨-, hgas⟩ := Call.guard_eq_ok.mp hgas
  exact priced_of_verifyFees hgas

/-- Two accepted transactions that sign the same optional fields, or strings of different lengths,
are told apart by the signed bytes exactly if agreement in what is signed makes them agree in type,
access list and the fees that are not signed. -/
theorem signing_binding_iff (s : TransactionVerifier) (tx tx' : Transaction)
    (h : s.verify tx = .ok ()) (h' : s.verify tx' = .ok ())
    (hcut : Aligned tx.toUnsignedTransaction tx'.toUnsignedTransaction ∨
      tx.signedLength ≠ tx'.signedLength) :
    (tx.toUnsignedTransaction ≠ tx'.toUnsignedTransaction → tx.preimage ≠ tx'.preimage) ↔
      (SameSigned tx.toUnsignedTransaction tx'.toUnsignedTransaction →
        SameUnsigned tx.toUnsignedTransaction tx'.toUnsignedTransaction) := by
  constructor
  · intro hbin hsgn
    have heq : tx.toUnsignedTransaction = tx'.toUnsignedTransaction := by
      by_contra hne
      exact hbin hne (preimage_congr hsgn)
    rw [heq]
    exact ⟨rfl, rfl, fun _ => rfl, fun _ => rfl⟩
  · intro huns hne heq
    rcases hcut with hali | hlength
    · have hsgn := (preimage_eq_iff hali).mp heq
      exact hne (eq_of_sameSigned (priced_of_verify h) (priced_of_verify h') hsgn
        (huns hsgn))
    · have hlen := congrArg length heq
      rw [length_preimage, length_preimage] at hlen
      exact hlength (add_left_cancel hlen)

end

namespace Sample

open Unhashed SelfSigned

scoped instance : SignatureCheck := ⟨fun _ => true⟩

def verifier : TransactionVerifier := ⟨1⟩

def legacy (nonce : UInt64) : Transaction where
  nonce
  gasPrice := some 1
  maxFeePerGas := none
  maxPriorityFeePerGas := none
  gasLimit := 21000
  toAddress := none
  value := 0
  input := []
  chainId := some 1
  accessList := none
  transactionType := 0
  signature := ⟨H256.ofU256 U256.MAX, H256.zero, 0⟩

def typed : Transaction := { legacy 0 with accessList := some [], transactionType := 1 }

theorem signing_binding_nonces : (legacy 0).preimage ≠ (legacy 1).preimage :=
  (signing_binding_iff verifier (legacy 0) (legacy 1) (by decide +kernel) (by decide +kernel)
    (.inl ⟨rfl, rfl, rfl⟩)).mpr (fun hsgn => absurd hsgn.nonce (by decide)) (by decide)

/-- A signature for a legacy transaction is one for the transaction with an access list. -/
theorem signing_ignores_type :
    verifier.verify (legacy 0) = .ok () ∧ verifier.verify typed = .ok () ∧
      (legacy 0).transactionType ≠ typed.transactionType ∧
      (legacy 0).preimage = typed.preimage ∧ (legacy 0).signature = typed.signature := by
  decide +kernel

end Sample

end TransactionVerifier

end EthereumRust.Verification
