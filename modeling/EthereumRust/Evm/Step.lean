import EthereumRust.Evm.Interpreter

/-!
# What one opcode can do

`Effect op s s'` says everything about the machine `s'` in which the arm of `op` leaves `s` when it
succeeds, `Faulted` what is left of `s` when it returns an error, and `Overflows op s` when it
panics. `StepSpec.lean` proves them for every arm; invariants of runs are derived from them and
never look at an arm again.
-/

namespace EthereumRust.Evm
open Rust

namespace Opcode

inductive Kind where
  | plain
  | push
  | jump
  | write
  | store
  | log
  | halt
  | skip
  deriving DecidableEq

def kind : Opcode → Kind
  | .PUSH _ => .push
  | .JUMP | .JUMPI => .jump
  | .CALLDATACOPY | .CODECOPY | .EXTCODECOPY | .RETURNDATACOPY | .MSTORE | .MSTORE8 => .write
  | .SSTORE => .store
  | .LOG _ => .log
  | .STOP | .RETURN | .REVERT => .halt
  | .BLOBHASH | .BLOBBASEFEE | .TLOAD | .TSTORE | .MCOPY | .CREATE | .CALL | .CALLCODE
  | .DELEGATECALL | .CREATE2 | .STATICCALL | .INVALID | .SELFDESTRUCT => .skip
  | _ => .plain

end Opcode

namespace Interpreter

/-- The `i`-th word from the top of the stack. -/
def operand (s : Interpreter S) (i : Nat) : U256 := s.stack.data.getD i 0

structure Ready (op : Opcode) (s : Interpreter S) : Prop where
  inputs : op.stackInputs ≤ s.stack.data.length
  room : s.stack.data.length + (op.stackOutputs - op.stackInputs) ≤ STACK_LIMIT

def Balanced (op : Opcode) (s : Interpreter S) (stack : Stack) : Prop :=
  stack.data.length + op.stackInputs = s.stack.data.length + op.stackOutputs

/-- The opcode moves the counter to its operand. -/
def Jumps (op : Opcode) (s : Interpreter S) : Prop :=
  op = .JUMP ∨ op = .JUMPI ∧ (s.operand 1).toNat ≠ 0

/-- Where the bytes that the opcode writes to memory end. -/
def writeEnd (s : Interpreter S) : Opcode → Nat
  | .MSTORE => (s.operand 0).toNat + 32
  | .MSTORE8 => (s.operand 0).toNat + 1
  | .CALLDATACOPY | .CODECOPY | .RETURNDATACOPY =>
    if (s.operand 2).toNat = 0 then 0 else (s.operand 0).toNat + (s.operand 2).toNat
  | .EXTCODECOPY =>
    if (s.operand 3).toNat = 0 then 0 else (s.operand 1).toNat + (s.operand 3).toNat
  | _ => 0

def writeCharge (s : Interpreter S) : Opcode → Nat
  | .MSTORE | .MSTORE8 => GasCost.VERYLOW.toNat
  | .CALLDATACOPY | .CODECOPY | .RETURNDATACOPY => (GasCost.copyCharge (s.operand 2)).toNat
  | .EXTCODECOPY => GasCost.EXTCODECOPY.toNat + (GasCost.copyCharge (s.operand 3)).toNat
  | _ => 0

def storeEntry (s : Interpreter S) : Opcode → Option (H256 × H256)
  | .SSTORE => some (.ofU256 (s.operand 0), .ofU256 (s.operand 1))
  | _ => none

/-- The log of a `LOG`: the executing address, the words below offset and size as topics, top
first, and the addressed part of memory. -/
def logEntry (s : Interpreter S) : Opcode → Option Log
  | .LOG n => some
    { address := s.context.address
      topics := ((s.stack.data.drop 2).take n).map H256.ofU256
      data := s.memory.get (s.operand 0).toNat (s.operand 1).toNat }
  | _ => none

variable [StateDB S]

/-- The machines in which the arm of `op` can leave `s` when it succeeds. -/
inductive Effect (op : Opcode) (s : Interpreter S) : Interpreter S → Prop where
  | plain {stack : Stack} {gas : Gas} {amount : Nat} :
    op.kind = .plain ∨ op = .JUMPI ∧ (s.operand 1).toNat = 0 → s.gas.Spent amount gas →
    Balanced op s stack →
    Effect op s { s with stack, gas, pc := s.pc + 1 }
  | push {stack : Stack} {gas : Gas} {amount n : Nat} :
    op.pushBytes = some n → s.gas.Spent amount gas → Balanced op s stack →
    Effect op s { s with stack, gas, pc := min (s.pc + 1 + n) s.context.code.length }
  | jump {stack : Stack} {gas : Gas} {amount : Nat} :
    Jumps op s → (s.operand 0).toNat < s.context.code.length →
    s.context.code.getD (s.operand 0).toNat 0 = Opcode.jumpdestByte →
    s.gas.Spent amount gas → GasCost.MID.toNat ≤ amount → Balanced op s stack →
    Effect op s { s with stack, gas, pc := (s.operand 0).toNat }
  | write {stack : Stack} {gas : Gas} {memory : Memory} :
    op.kind = .write → s.gas.Spent (s.writeCharge op) gas → Balanced op s stack →
    memory.len = max s.memory.len (s.writeEnd op) → s.writeEnd op < wordBound →
    Effect op s { s with stack, gas, memory, pc := s.pc + 1 }
  | store {stack : Stack} {gas : Gas} {amount : Nat} {key value : H256} :
    s.context.isStatic = false → s.storeEntry op = some (key, value) →
    s.gas.Spent amount gas → Balanced op s stack →
    Effect op s { s with
      stack, gas, pc := s.pc + 1
      state := StateDB.setStorage s.state s.context.address key value }
  | log {stack : Stack} {gas : Gas} {amount : Nat} {log : Log} :
    s.context.isStatic = false → s.logEntry op = some log →
    s.gas.Spent amount gas → Balanced op s stack →
    Effect op s { s with stack, gas, pc := s.pc + 1, logs := s.logs ++ [log] }
  | halt {stack : Stack} {result : ExecutionResult} :
    op.kind = .halt → result.logs = [] → stack.data.length ≤ s.stack.data.length →
    (∀ reason, result.status ≠ .Halt reason) →
    Effect op s { s with stack, result := some result }
  | skip : op.kind = .skip → Effect op s { s with pc := s.pc + 1 }

omit [StateDB S] in
/-- What is left of `s` when an arm returns the error `e`: only words were popped and gas was
charged, and the stack was neither too short nor too long. -/
structure Faulted (s : Interpreter S) (e : EvmError) (s' : Interpreter S) : Prop where
  frame : s' = { s with stack := s'.stack, gas := s'.gas }
  gas : s.gas.Grows s'.gas
  stack : s'.stack.data.length ≤ s.stack.data.length
  not_underflow : e ≠ .StackUnderflow
  not_overflow : e ≠ .StackOverflow

/-- `get_slice` panics: a cast fails, or `offset + size` overflows for an offset inside. -/
def SliceOverflows (data : List UInt8) (offset size : U256) : Prop :=
  size.toNat ≠ 0 ∧ (wordBound ≤ offset.toNat ∨ wordBound ≤ size.toNat ∨
    offset.toNat < data.length ∧ wordBound ≤ offset.toNat + size.toNat)

/-- The arm of `op` panics in `s`. The gas conditions say that the arm gets as far as the
operation that panics. -/
def Overflows (s : Interpreter S) : Opcode → Prop
  | .SIGNEXTEND => s.gas.Affords GasCost.LOW ∧ (s.operand 0).toNat = 31
  | .KECCAK256 => wordBound ≤ (s.operand 1).toNat + 31 ∨
    s.gas.Affords (GasCost.keccakCharge (s.operand 1)) ∧ wordBound ≤ (s.operand 0).toNat
  | .CALLDATALOAD => s.gas.Affords GasCost.VERYLOW ∧
    SliceOverflows s.context.data (s.operand 0) 32
  | .CALLDATACOPY => wordBound ≤ (s.operand 2).toNat + 31 ∨
    s.gas.Affords (GasCost.copyCharge (s.operand 2)) ∧
      (SliceOverflows s.context.data (s.operand 1) (s.operand 2) ∨ wordBound ≤ (s.operand 0).toNat)
  | .CODECOPY => wordBound ≤ (s.operand 2).toNat + 31 ∨
    s.gas.Affords (GasCost.copyCharge (s.operand 2)) ∧
      (SliceOverflows s.context.code (s.operand 1) (s.operand 2) ∨ wordBound ≤ (s.operand 0).toNat)
  | .EXTCODECOPY => s.gas.Affords GasCost.EXTCODECOPY ∧
    (wordBound ≤ (s.operand 3).toNat + 31 ∨
      (s.gas.spend GasCost.EXTCODECOPY).Affords (GasCost.copyCharge (s.operand 3)) ∧
        ((∃ account, StateDB.getAccount s.state (addressFromU256 (s.operand 0)) = some account ∧
            SliceOverflows account.code (s.operand 2) (s.operand 3)) ∨
          wordBound ≤ (s.operand 1).toNat))
  | .RETURNDATACOPY => wordBound ≤ (s.operand 2).toNat + 31 ∨
    s.gas.Affords (GasCost.copyCharge (s.operand 2)) ∧
      (s.operand 1).saturatingAdd (s.operand 2) ≤ .ofUsize s.returnData.length ∧
      (SliceOverflows s.returnData (s.operand 1) (s.operand 2) ∨ wordBound ≤ (s.operand 0).toNat)
  | .BLOCKHASH => s.gas.Affords GasCost.BLOCKHASH ∧ s.operand 0 < s.context.block.number ∧
    s.context.block.number - s.operand 0 ≤ 256 ∧ wordBound ≤ (s.operand 0).toNat
  | .MLOAD | .MSTORE | .MSTORE8 =>
    s.gas.Affords GasCost.VERYLOW ∧ wordBound ≤ (s.operand 0).toNat
  | .JUMP => s.gas.Affords GasCost.MID ∧ wordBound ≤ (s.operand 0).toNat
  | .JUMPI => s.gas.Affords GasCost.HIGH ∧ (s.operand 1).toNat ≠ 0 ∧
    wordBound ≤ (s.operand 0).toNat
  | .LOG n => s.context.isStatic = false ∧ (wordBound ≤ (s.operand 1).toNat ∨
    s.gas.Affords (GasCost.logCharge n (s.operand 1)) ∧ wordBound ≤ (s.operand 0).toNat)
  | .RETURN | .REVERT => wordBound ≤ (s.operand 0).toNat ∨ wordBound ≤ (s.operand 1).toNat
  | _ => False

/-- `m`, started in `s₁`, completes the arm of `op` that was entered in `s`. Success, error and
panic are told apart by `Overflows`, but a program counter past the code may panic on its own. -/
structure Completes (op : Opcode) (s s₁ : Interpreter S) (m : Exec S Unit) : Prop where
  sat : m.Sat s₁ (fun _ s' => Effect op s s' ∧ ¬s.Overflows op)
    (fun e s' => Faulted s e s' ∧ ¬s.Overflows op)
    (fun _ => s.Overflows op ∨ s.context.code.length ≤ s.pc)

end Interpreter

end EthereumRust.Evm
