import EthereumRust.Types

/-!
# Contexts, results and errors (`execution.rs`, `error.rs`)

A context owns its code and its call data, so their lengths are those of a `Vec<u8>`; the two
bounds are fields of the structure. `depth` is left out: nothing below reads it.
-/

namespace EthereumRust.Evm
open Rust

inductive EvmError where
  | StackOverflow
  | StackUnderflow
  | InvalidJump (dest : Nat)
  | InvalidOpcode (byte : UInt8)
  | OutOfGas
  | InsufficientBalance
  | ContractCreationFailed
  | CallDepthExceeded
  | InvalidMemoryAccess
  | WriteProtection
  | ReturnDataOutOfBounds
  | StaticCallStateModification
  | PrecompileFailed (msg : String)
  | InvalidSignature
  | CodeSizeExceeded
  | InvalidInitCode
  | NonceOverflow
  | InvalidInput
  deriving DecidableEq, Repr

structure BlockContext where
  coinbase : Address
  number : U256
  timestamp : U256
  difficulty : U256
  gasLimit : U256
  baseFee : Option U256
  chainId : U256
  blockHashes : List H256

structure ExecutionContext where
  caller : Address
  address : Address
  origin : Address
  value : U256
  code : List UInt8
  data : List UInt8
  gasPrice : U256
  gasLimit : UInt64
  block : BlockContext
  isStatic : Bool
  code_length : code.length ≤ isizeMax
  data_length : data.length ≤ isizeMax

namespace ExecutionContext

def new (caller address : Address) (value : U256) (code data : List UInt8) (gasLimit : UInt64)
    (block : BlockContext) (code_length : code.length ≤ isizeMax)
    (data_length : data.length ≤ isizeMax) : ExecutionContext where
  caller := caller
  address := address
  origin := caller
  value := value
  code := code
  data := data
  gasPrice := 0
  gasLimit := gasLimit
  block := block
  isStatic := false
  code_length := code_length
  data_length := data_length

def withStatic (context : ExecutionContext) : ExecutionContext := { context with isStatic := true }

end ExecutionContext

def createTestContext (code : List UInt8) (gasLimit : UInt64)
    (code_length : code.length ≤ isizeMax := by decide) : ExecutionContext :=
  let block : BlockContext :=
    { coinbase := List.Vector.replicate 20 0
      number := 1
      timestamp := 1000
      difficulty := 1000000
      gasLimit := 10000000
      baseFee := some 1000
      chainId := 1
      blockHashes := [] }
  .new (addressFromU256 1) (addressFromU256 2) 0 code [] gasLimit block code_length (Nat.zero_le _)

structure Log where
  address : Address
  topics : List H256
  data : List UInt8
  deriving DecidableEq

inductive HaltReason where
  | OutOfGas
  | InvalidOpcode (byte : UInt8)
  | StackUnderflow
  | StackOverflow
  | InvalidJump
  | CallDepthExceeded
  | CreateCollision
  | CreateContractTooLarge
  | PrecompileFailed
  | StateModificationInStatic
  | InvalidCode
  deriving DecidableEq, Repr

inductive ExecutionStatus where
  | Success
  | Revert
  | Halt (reason : HaltReason)
  deriving DecidableEq, Repr

structure ExecutionResult where
  status : ExecutionStatus := .Success
  gasUsed : UInt64 := 0
  gasRefund : UInt64 := 0
  returnData : List UInt8 := []
  logs : List Log := []
  createdAddress : Option Address := none
  accessedAddresses : Finset Address := ∅
  accessedStorageKeys : Finset (Address × H256) := ∅
  deriving DecidableEq

namespace ExecutionResult

def success (returnData : List UInt8) (gasUsed : UInt64) : ExecutionResult :=
  { status := .Success, gasUsed, returnData }

def revert (returnData : List UInt8) (gasUsed : UInt64) : ExecutionResult :=
  { status := .Revert, gasUsed, returnData }

def halt (reason : HaltReason) (gasUsed : UInt64) : ExecutionResult :=
  { status := .Halt reason, gasUsed }

end ExecutionResult

end EthereumRust.Evm
