import EthereumRust.Types
import EthereumRust.Lib.Batches

/-!
# Withdrawal requests and exits (`crates/consensus`: `eip7002.rs`)

Two stores take up to 16 withdrawal requests a block and let the fee grow with the requests in
excess of two a block: `WithdrawalRequestContract` and `WithdrawalRequestQueue`. The sums of the
stores depend on the build: with overflow checks the counters panic at the end of their range,
without they wrap.

`ExitQueueManager` schedules exits, at most `max_exits_per_epoch` for one epoch.
-/

namespace EthereumRust.Consensus
open Rust Rust.Method

def maxWithdrawalRequestsPerBlock : UInt64 := 16

def targetWithdrawalRequestsPerBlock : UInt64 := 2

def minWithdrawalRequestFee : UInt64 := 1

def withdrawalRequestFeeUpdateFraction : UInt64 := 17

inductive Eip7002Error where
  | invalidPubkey
  | invalidSignature
  | insufficientFee (required provided : U256)
  | tooManyRequests
  | validatorNotFound
  | alreadyExited
  | invalidSourceAddress
  deriving DecidableEq, Repr

structure WithdrawalRequest where
  sourceAddress : Address
  validatorPubkey : Pubkey
  amount : U256
  deriving DecidableEq

/-- The loop of `fake_exponential`. It is left when `i` passes 256, before the turns run out. -/
def fakeExponentialLoop (numerator denominator : U256) : Nat → U256 → U256 → U256 → Checked U256
  | 0, output, _, _ => .ok output
  | turns + 1, output, accum, i =>
    if accum > 0 then do
      let output ← U256.add output accum
      let accum ← U256.div (← U256.mul accum numerator) (← U256.mul denominator i)
      let i ← U256.add i 1
      if i > 256 then return output
      else fakeExponentialLoop numerator denominator turns output accum i
    else .ok output

def fakeExponential (factor numerator denominator : U256) : Checked U256 := do
  let accum ← U256.mul factor denominator
  let output ← fakeExponentialLoop numerator denominator 256 0 accum 1
  U256.div output denominator

def calculateWithdrawalRequestFee (excessRequests : UInt64) : Checked U256 :=
  fakeExponential (.ofU64 minWithdrawalRequestFee) (.ofU64 excessRequests)
    (.ofU64 withdrawalRequestFeeUpdateFraction)

structure WithdrawalRequestContract where
  requests : List WithdrawalRequest
  excessRequests : UInt64
  currentFee : U256
  deriving DecidableEq

namespace WithdrawalRequestContract

def new : WithdrawalRequestContract where
  requests := []
  excessRequests := 0
  currentFee := .ofU64 minWithdrawalRequestFee

def addRequest (request : WithdrawalRequest) (feeProvided : U256) :
    Method WithdrawalRequestContract Eip7002Error Unit := do
  let currentFee ← read (·.currentFee)
  if feeProvided < currentFee then fail (.insufficientFee currentFee feeProvided)
  else if (← read (·.requests.length)) ≥ maxWithdrawalRequestsPerBlock.toNat then
    fail .tooManyRequests
  else update fun self => { self with requests := self.requests ++ [request] }

def updateExcessRequests [Build] (self : WithdrawalRequestContract) (count : UInt64) :
    Checked WithdrawalRequestContract := do
  let target := targetWithdrawalRequestsPerBlock
  if (← plusU64 self.excessRequests count) > target then
    return { self with excessRequests := ← subU64 (← plusU64 self.excessRequests count) target }
  else return { self with excessRequests := 0 }

def updateFee (self : WithdrawalRequestContract) : Checked WithdrawalRequestContract := do
  return { self with currentFee := ← calculateWithdrawalRequestFee self.excessRequests }

def processRequests [Build] (self : WithdrawalRequestContract) :
    Checked (List WithdrawalRequest × WithdrawalRequestContract) := do
  let requests := self.requests
  let self := { self with requests := [] }
  let self ← self.updateExcessRequests (.ofNat requests.length)
  let self ← self.updateFee
  return (requests, self)

end WithdrawalRequestContract

structure WithdrawalRequestQueue where
  head : UInt64
  tail : UInt64
  count : UInt64
  excess : UInt64
  requests : List WithdrawalRequest
  deriving DecidableEq

namespace WithdrawalRequestQueue

def new : WithdrawalRequestQueue where
  head := 0
  tail := 0
  count := 0
  excess := 0
  requests := []

def enqueue [Build] (request : WithdrawalRequest) :
    Method WithdrawalRequestQueue Eip7002Error Unit := do
  if (← read (·.count)) ≥ maxWithdrawalRequestsPerBlock then fail .tooManyRequests
  else
    let tail ← plusU64 (← read (·.tail)) 1
    let count ← plusU64 (← read (·.count)) 1
    update fun self => { self with requests := self.requests ++ [request], tail, count }

def dequeue [Build] (self : WithdrawalRequestQueue) :
    Checked (Option WithdrawalRequest × WithdrawalRequestQueue) := do
  if self.count = 0 then return (none, self)
  match self.requests with
  | [] => .error .slice
  | request :: requests =>
    let head ← plusU64 self.head 1
    let count ← subU64 self.count 1
    return (some request, { self with requests, head, count })

def dequeueTimes [Build] : Nat → WithdrawalRequestQueue →
    Checked (List WithdrawalRequest × WithdrawalRequestQueue)
  | 0, self => .ok ([], self)
  | times + 1, self => do
    let (request, self) ← self.dequeue
    let (requests, self) ← dequeueTimes times self
    return (request.toList ++ requests, self)

def updateExcess [Build] (self : WithdrawalRequestQueue) (count : UInt64) :
    Checked WithdrawalRequestQueue := do
  let target := targetWithdrawalRequestsPerBlock
  if count > target then
    return { self with excess := ← plusU64 self.excess (← subU64 count target) }
  else if self.excess > 0 then
    return { self with excess := saturatingSub self.excess (← subU64 target count) }
  else return self

def dequeueUpTo [Build] (self : WithdrawalRequestQueue) (maxCount : UInt64) :
    Checked (List WithdrawalRequest × WithdrawalRequestQueue) := do
  let (result, self) ← dequeueTimes (min self.count maxCount).toNat self
  let self ← self.updateExcess (.ofNat result.length)
  return (result, self)

def getFee (self : WithdrawalRequestQueue) : Checked U256 :=
  calculateWithdrawalRequestFee self.excess

end WithdrawalRequestQueue

inductive ExitInitiator where
  | validator
  | executionLayer
  | protocol
  deriving DecidableEq, Repr

structure ValidatorExit where
  validatorIndex : UInt64
  validatorPubkey : Pubkey
  exitEpoch : UInt64
  withdrawableEpoch : UInt64
  initiatedBy : ExitInitiator
  deriving DecidableEq

structure ExitQueueManager where
  pendingExits : List ValidatorExit
  processedExits : List ValidatorExit
  maxExitsPerEpoch : UInt64
  deriving DecidableEq

namespace ExitQueueManager

def new (maxExitsPerEpoch : UInt64) : ExitQueueManager := ⟨[], [], maxExitsPerEpoch⟩

def exitsInEpoch (self : ExitQueueManager) (exitEpoch : UInt64) : Nat :=
  self.pendingExits.countP fun exit => exit.exitEpoch = exitEpoch

/-- The loop of `calculate_exit_epoch`. After `2 ^ 64` turns it would be past the last epoch, where
`exit_epoch += 1` panics. -/
def searchExitEpoch (self : ExitQueueManager) : Nat → UInt64 → Checked UInt64
  | 0, _ => .error .arithmetic
  | turns + 1, exitEpoch => do
    if self.exitsInEpoch exitEpoch < self.maxExitsPerEpoch.toNat then return exitEpoch
    else self.searchExitEpoch turns (← addU64 exitEpoch 1)

def calculateExitEpoch (self : ExitQueueManager) (currentEpoch : UInt64) : Checked UInt64 := do
  self.searchExitEpoch wordBound (← addU64 currentEpoch 4)

def addExitRequest (validatorIndex : UInt64) (validatorPubkey : Pubkey) (currentEpoch : UInt64)
    (initiatedBy : ExitInitiator) : Method ExitQueueManager Eip7002Error Unit := do
  if (← read (·.pendingExits)).any (·.validatorIndex = validatorIndex) then fail .alreadyExited
  else
    let exitEpoch ← (← read (·.calculateExitEpoch currentEpoch))
    let withdrawableEpoch ← addU64 exitEpoch 256
    let exit := { validatorIndex, validatorPubkey, exitEpoch, withdrawableEpoch, initiatedBy }
    update fun self =>
      { self with
        pendingExits := Batches.sortByKey (·.exitEpoch.toNat) (self.pendingExits ++ [exit]) }

def processEpoch (self : ExitQueueManager) (currentEpoch : UInt64) :
    List ValidatorExit × ExitQueueManager :=
  let processed := self.pendingExits.filter (·.exitEpoch ≤ currentEpoch)
  (processed,
    { self with
      pendingExits := self.pendingExits.filter fun exit => !decide (exit.exitEpoch ≤ currentEpoch)
      processedExits := self.processedExits ++ processed })

end ExitQueueManager

end EthereumRust.Consensus
