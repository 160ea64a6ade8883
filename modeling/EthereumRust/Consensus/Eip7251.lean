import EthereumRust.Types

/-!
# Validators with a raised balance cap (`crates/consensus`: `eip7251.rs`)

A validator's effective balance is capped, and what goes over the cap waits in
`pending_balance_to_deposit`. The cap depends on the first byte of the withdrawal credentials.

The three constants are parameters. The source writes each of them into one 64-bit limb, which 2048
ETH do not fit.
-/

namespace EthereumRust.Consensus
open Rust Rust.Method

class BalanceConstants where
  minActivationBalance : U256
  maxEffectiveBalanceEip7251 : U256
  oldMaxEffectiveBalance : U256

export BalanceConstants (minActivationBalance maxEffectiveBalanceEip7251 oldMaxEffectiveBalance)

inductive Eip7251Error where
  | invalidBalance (message : String)
  | belowMinimumBalance
  | exceedsMaximumBalance
  | invalidWithdrawalCredential
  | validatorNotFound
  deriving DecidableEq, Repr

inductive WithdrawalCredentialType where
  | bls
  | eth1
  | compounding
  deriving DecidableEq, Repr

namespace WithdrawalCredentialType

def fromByte (byte : UInt8) : Option WithdrawalCredentialType :=
  match byte with
  | 0x00 => some .bls
  | 0x01 => some .eth1
  | 0x02 => some .compounding
  | _ => none

def toByte : WithdrawalCredentialType → UInt8
  | .bls => 0x00
  | .eth1 => 0x01
  | .compounding => 0x02

end WithdrawalCredentialType

structure ValidatorEip7251 where
  pubkey : Pubkey
  withdrawalCredentials : H256
  effectiveBalance : U256
  slashed : Bool
  activationEligibilityEpoch : UInt64
  activationEpoch : UInt64
  exitEpoch : UInt64
  withdrawableEpoch : UInt64
  pendingBalanceToDeposit : U256
  deriving DecidableEq

namespace ValidatorEip7251

def maxEpoch : UInt64 := .ofNat (wordBound - 1)

section
variable [BalanceConstants]

def maxEffective : WithdrawalCredentialType → U256
  | .compounding => maxEffectiveBalanceEip7251
  | _ => oldMaxEffectiveBalance

def new (pubkey : Pubkey) (withdrawalCredentials : H256) (initialBalance : U256) :
    Except Eip7251Error ValidatorEip7251 :=
  if initialBalance < minActivationBalance then .error .belowMinimumBalance
  else
    match WithdrawalCredentialType.fromByte withdrawalCredentials.head with
    | none => .error .invalidWithdrawalCredential
    | some withdrawalType =>
      let maxEffective := maxEffective withdrawalType
      .ok {
        pubkey
        withdrawalCredentials
        effectiveBalance := if initialBalance > maxEffective then maxEffective else initialBalance
        slashed := false
        activationEligibilityEpoch := maxEpoch
        activationEpoch := maxEpoch
        exitEpoch := maxEpoch
        withdrawableEpoch := maxEpoch
        pendingBalanceToDeposit := 0 }

def getWithdrawalCredentialType (self : ValidatorEip7251) : Option WithdrawalCredentialType :=
  WithdrawalCredentialType.fromByte self.withdrawalCredentials.head

def isCompounding (self : ValidatorEip7251) : Bool :=
  self.getWithdrawalCredentialType = some .compounding

def getMaxEffectiveBalance (self : ValidatorEip7251) : U256 :=
  if self.isCompounding then maxEffectiveBalanceEip7251 else oldMaxEffectiveBalance

def addBalance (self : ValidatorEip7251) (amount : U256) : Checked ValidatorEip7251 := do
  let newBalance ← U256.add self.effectiveBalance amount
  let maxEffective := self.getMaxEffectiveBalance
  if newBalance > maxEffective then
    -- what was pending before is overwritten
    let pending ← U256.sub newBalance maxEffective
    return { self with effectiveBalance := maxEffective, pendingBalanceToDeposit := pending }
  else return { self with effectiveBalance := newBalance }

def consolidateBalance (self : ValidatorEip7251) : Checked (U256 × ValidatorEip7251) := do
  let consolidatable := self.pendingBalanceToDeposit
  let maxEffective := self.getMaxEffectiveBalance
  let newEffective ← U256.add self.effectiveBalance consolidatable
  if newEffective > maxEffective then
    let pending ← U256.sub newEffective maxEffective
    return (consolidatable,
      { self with effectiveBalance := maxEffective, pendingBalanceToDeposit := pending })
  else
    return (consolidatable,
      { self with effectiveBalance := newEffective, pendingBalanceToDeposit := 0 })

def setCredentialByte (self : ValidatorEip7251) (byte : UInt8) : ValidatorEip7251 :=
  { self with withdrawalCredentials := .cons byte self.withdrawalCredentials.tail }

def switchToCompoundingValidator (self : ValidatorEip7251) :
    Checked (Except Eip7251Error ValidatorEip7251) := do
  if self.getWithdrawalCredentialType ≠ some .eth1 then
    return .error .invalidWithdrawalCredential
  let (_, self) ←
    (self.setCredentialByte WithdrawalCredentialType.compounding.toByte).consolidateBalance
  return .ok self

end

def initiateExit (self : ValidatorEip7251) (currentEpoch : UInt64) : ValidatorEip7251 :=
  if self.exitEpoch = maxEpoch then { self with exitEpoch := currentEpoch } else self

end ValidatorEip7251

structure ValidatorRegistry where
  validators : List ValidatorEip7251
  balances : List U256
  deriving DecidableEq

namespace ValidatorRegistry

def new : ValidatorRegistry := ⟨[], []⟩

def addValidator (validator : ValidatorEip7251) (balance : U256) :
    Method ValidatorRegistry Eip7251Error Nat := do
  let index ← read (·.validators.length)
  update fun registry =>
    ⟨registry.validators ++ [validator], registry.balances ++ [balance]⟩
  return index

def getBalance (registry : ValidatorRegistry) (index : Nat) : Option U256 :=
  registry.balances[index]?

def storeBalance (index : Nat) (balance : U256) : Method ValidatorRegistry Eip7251Error Unit :=
  update fun registry => { registry with balances := registry.balances.set index balance }

def storeValidator (index : Nat) (validator : ValidatorEip7251) :
    Method ValidatorRegistry Eip7251Error Unit :=
  update fun registry => { registry with validators := registry.validators.set index validator }

def setBalance (index : Nat) (balance : U256) : Method ValidatorRegistry Eip7251Error Unit := do
  if index ≥ (← read (·.balances.length)) then fail .validatorNotFound
  else storeBalance index balance

section
variable [BalanceConstants]

def increaseBalance (index : Nat) (delta : U256) : Method ValidatorRegistry Eip7251Error Unit := do
  match (← read (·.balances))[index]? with
  | none => fail .validatorNotFound
  | some balance =>
    storeBalance index (← U256.add balance delta)
    match (← read (·.validators))[index]? with
    | none => pure ()
    | some validator => storeValidator index (← validator.addBalance delta)

end

def decreaseBalance (index : Nat) (delta : U256) : Method ValidatorRegistry Eip7251Error Unit := do
  match (← read (·.balances))[index]? with
  | none => fail .validatorNotFound
  | some balance =>
    let balance ← (if balance < delta then pure 0 else U256.sub balance delta : Checked U256)
    storeBalance index balance
    match (← read (·.validators))[index]? with
    | none => pure ()
    | some validator =>
      if balance < validator.effectiveBalance then
        storeValidator index { validator with effectiveBalance := balance }

section
variable [BalanceConstants]

/-- The loop of `process_pending_balance_deposits` from a position on, where `count` deposits have
been processed: what it processes, and the validators from there on. -/
def processPendingFrom (maxDeposits : Nat) : Nat → Nat → List ValidatorEip7251 →
    Checked (List (Nat × U256) × List ValidatorEip7251)
  | _, _, [] => .ok ([], [])
  | index, count, validator :: rest => do
    if count ≥ maxDeposits then return ([], validator :: rest)
    if validator.pendingBalanceToDeposit > 0 then
      let (amount, validator) ← validator.consolidateBalance
      if amount > 0 then
        let (processed, rest) ← processPendingFrom maxDeposits (index + 1) (count + 1) rest
        return ((index, amount) :: processed, validator :: rest)
      else
        let (processed, rest) ← processPendingFrom maxDeposits (index + 1) count rest
        return (processed, validator :: rest)
    else
      let (processed, rest) ← processPendingFrom maxDeposits (index + 1) count rest
      return (processed, validator :: rest)

def processPendingBalanceDeposits (maxDeposits : Nat) :
    Method ValidatorRegistry Eip7251Error (List (Nat × U256)) := do
  let (processed, validators) ← processPendingFrom maxDeposits 0 0 (← read (·.validators))
  update fun registry => { registry with validators }
  return processed

end

def position (registry : ValidatorRegistry) (pubkey : Pubkey) : Option Nat :=
  registry.validators.findIdx? (·.pubkey = pubkey)

end ValidatorRegistry

structure ConsolidationRequest where
  sourceAddress : Address
  sourcePubkey : Pubkey
  targetPubkey : Pubkey
  deriving DecidableEq

namespace ConsolidationRequest
open ValidatorRegistry

def okOr {α : Type} (option : Option α) (error : Eip7251Error) :
    Method ValidatorRegistry Eip7251Error α :=
  match option with
  | some a => pure a
  | none => fail error

def exitSource (sourceIndex : Nat) : Method ValidatorRegistry Eip7251Error Unit := do
  match (← read (·.validators))[sourceIndex]? with
  | none => (Except.error .slice : Checked Unit)
  | some source => storeValidator sourceIndex (source.initiateExit 0)

def switchTarget [BalanceConstants] (targetIndex : Nat) :
    Method ValidatorRegistry Eip7251Error Unit := do
  match (← read (·.validators))[targetIndex]? with
  | none => pure ()
  | some target =>
    if !target.isCompounding then
      storeValidator targetIndex (← result (← target.switchToCompoundingValidator))

def process [BalanceConstants] (self : ConsolidationRequest) :
    Method ValidatorRegistry Eip7251Error Unit := do
  let sourceIndex ← okOr (← read (·.position self.sourcePubkey)) .validatorNotFound
  let targetIndex ← okOr (← read (·.position self.targetPubkey)) .validatorNotFound
  let sourceBalance ← okOr (← read (·.getBalance sourceIndex)) .validatorNotFound
  exitSource sourceIndex
  increaseBalance targetIndex sourceBalance
  switchTarget targetIndex

end ConsolidationRequest

end EthereumRust.Consensus
