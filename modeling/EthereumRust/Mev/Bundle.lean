import EthereumRust.Core.Sender

/-!
# Bundles (`crates/mev/src/bundle.rs`)

A bundle is worth the tips of its transactions, each over the gas limit of the transaction. The
sender of a transaction is the signer it was submitted with, or else the one recovered from its
signature.
-/

namespace EthereumRust.Mev
open Rust EthereumRust.Core List

/-- The errors of a bundle, all of them `InvalidBundle` in the source. -/
inductive MevError where
  | invalidBundle (message : String)
  | duplicateTransaction (hash : H256)
  | senderNotRecovered (error : TransactionError)
  deriving DecidableEq

structure BundleTransaction where
  transaction : Transaction
  signer : Option Address := none
  canRevert : Bool := false
  deriving DecidableEq

structure Bundle where
  transactions : List BundleTransaction
  blockNumber : UInt64
  minBlock : UInt64
  maxBlock : UInt64
  revertingTxHashes : List H256 := []
  replacementUuid : Option String := none
  deriving DecidableEq

namespace BundleTransaction

def gasLimit (self : BundleTransaction) : Checked UInt64 := self.transaction.gasLimit.asU64

def effectiveTip (self : BundleTransaction) (baseFee : U256) : Checked U256 :=
  let maxFee := self.transaction.gasPrice
  if maxFee > baseFee then maxFee.sub baseFee else .ok 0

section
variable [Crypto]

def hash (self : BundleTransaction) : H256 := self.transaction.hash

def sender [Recovery] (self : BundleTransaction) : Checked (Except MevError Address) :=
  match self.signer with
  | some signer => .ok (.ok signer)
  | none => do
    let sender ← self.transaction.sender
    return sender.mapError .senderNotRecovered

end

end BundleTransaction

namespace Bundle

def totalGas (self : Bundle) : Checked UInt64 :=
  self.transactions.foldlM (fun gas tx => do addU64 gas (← tx.gasLimit)) 0

def scoringValue (self : Bundle) (baseFee : U256) : Checked U256 :=
  self.transactions.foldlM (fun value tx => do
    let tip ← tx.effectiveTip baseFee
    let gasLimit ← tx.gasLimit
    let product ← tip.mul (U256.ofU64 gasLimit)
    value.add product) 0

section
variable [Crypto]

def checkDuplicates (seen : Finset H256) : List BundleTransaction → Except MevError Unit
  | [] => .ok ()
  | tx :: txs =>
    if tx.hash ∈ seen then .error (.duplicateTransaction tx.hash)
    else checkDuplicates (insert tx.hash seen) txs

def validate (self : Bundle) : Except MevError Unit :=
  if self.transactions.isEmpty then .error (.invalidBundle "Bundle has no transactions")
  else if self.maxBlock < self.minBlock then .error (.invalidBundle "Invalid block range")
  else checkDuplicates ∅ self.transactions

structure Valid (bundle : Bundle) : Prop where
  nonempty : bundle.transactions ≠ []
  range : bundle.minBlock ≤ bundle.maxBlock
  nodup : (bundle.transactions.map BundleTransaction.hash).Nodup

theorem checkDuplicates_eq_ok : checkDuplicates seen txs = .ok () ↔
      (∀ tx ∈ txs, tx.hash ∉ seen) ∧ (txs.map BundleTransaction.hash).Nodup := by
  induction txs generalizing seen with
  | nil => simp [checkDuplicates]
  | cons tx txs ih =>
    rw [checkDuplicates]
    split_ifs with hseen
    · simp [hseen]
    · rw [ih]
      grind

theorem validate_eq_ok {s : Bundle} : s.validate = .ok () ↔ s.Valid := by
  rw [validate]
  split_ifs with hemp hrng
  · simp only [false_iff]
    exact fun H => H.nonempty (isEmpty_iff.mp hemp)
  · simp only [false_iff]
    exact fun H => UInt64.not_le.mpr hrng H.range
  · rw [checkDuplicates_eq_ok]
    constructor
    · rintro ⟨-, hnd⟩
      exact ⟨fun h => hemp (isEmpty_iff.mpr h), UInt64.not_lt.mp hrng, hnd⟩
    · intro H
      exact ⟨fun _ _ => Finset.notMem_empty _, H.nodup⟩

def Sends [Recovery] (self : Bundle) (address : Address) : Prop :=
  ∃ tx ∈ self.transactions, tx.sender = .ok (.ok address)

end

end Bundle

end EthereumRust.Mev
