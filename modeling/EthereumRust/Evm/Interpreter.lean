import EthereumRust.Lib.Loop
import EthereumRust.Crypto
import EthereumRust.Evm.Gas
import EthereumRust.Evm.Memory
import EthereumRust.Evm.Opcode
import EthereumRust.Evm.Stack
import EthereumRust.Evm.State
import EthereumRust.Evm.Word

/-!
# The interpreter (`interpreter.rs`)

`arm` is the `match` of `execute_opcode`, one arm an opcode. Arms that differ only in a cost and in
the word they push are instances of one method (`binaryOp`, `unaryOp`, `queryOp`, `pushOp`); an arm
that does anything else has its own body. `turn` is one round of the `while` loop of `run`.
-/

namespace EthereumRust.Evm
open Rust

structure Interpreter (S : Type) where
  context : ExecutionContext
  state : S
  stack : Stack
  memory : Memory
  gas : Gas
  pc : Nat
  returnData : List UInt8
  logs : List Log
  result : Option ExecutionResult

def Interpreter.new {S : Type} (context : ExecutionContext) (state : S) : Interpreter S where
  context := context
  state := state
  stack := .new
  memory := .new
  gas := .new context.gasLimit
  pc := 0
  returnData := []
  logs := []
  result := none

abbrev Exec (S : Type) := Method (Interpreter S) EvmError

namespace Interpreter
open Method (read update fail)

def consume (amount : UInt64) : Exec S Unit := fun s =>
  match s.gas.consume amount with
  | .ok gas => .ok () { s with gas }
  | .error e => .err e s

def pop : Exec S U256 := fun s =>
  match s.stack.pop with
  | .ok (value, stack) => .ok value { s with stack }
  | .error e => .err e s

def onStack (f : Stack → Except EvmError Stack) : Exec S Unit := fun s =>
  match f s.stack with
  | .ok stack => .ok () { s with stack }
  | .error e => .err e s

def push (value : U256) : Exec S Unit := onStack (·.push value)

def checkStack (f : Stack → Except EvmError Unit) : Exec S Unit := fun s =>
  match f s.stack with
  | .ok _ => .ok () s
  | .error e => .err e s

def onMemory (f : Memory → Except EvmError Memory) : Exec S Unit := fun s =>
  match f s.memory with
  | .ok memory => .ok () { s with memory }
  | .error e => .err e s

def advance : Exec S Unit := do
  let pc ← read (·.pc)
  let pc ← addUsize pc 1
  update fun s => { s with pc }

def getSlice (data : List UInt8) (offset size : U256) : Checked (List UInt8) :=
  if size.isZero then return []
  else do
    let offset ← offset.asUsize
    let size ← size.asUsize
    if offset ≥ data.length then return List.replicate size 0
    else
      let stop := min (← addUsize offset size) data.length
      return resize ((data.take stop).drop offset) size

def jump (dest : Nat) : Exec S Unit := do
  let code ← read (·.context.code)
  if dest ≥ code.length ∨ code.getD dest 0 ≠ Opcode.jumpdestByte then fail (.InvalidJump dest)
  else update fun s => { s with pc := dest }

def binaryOp (cost : UInt64) (f : U256 → U256 → Checked U256) : Exec S Unit := do
  consume cost
  let b ← pop
  let a ← pop
  push (← f a b)
  advance

def ternaryOp (cost : UInt64) (f : U256 → U256 → U256 → U256) : Exec S Unit := do
  consume cost
  let n ← pop
  let b ← pop
  let a ← pop
  push (f a b n)
  advance

def unaryOp (cost : UInt64) (f : Interpreter S → U256 → Checked U256) : Exec S Unit := do
  consume cost
  let a ← pop
  let self ← read id
  push (← f self a)
  advance

def queryOp (cost : UInt64) (f : Interpreter S → U256 → Checked U256) : Exec S Unit := do
  let a ← pop
  consume cost
  let self ← read id
  push (← f self a)
  advance

def pushOp (cost : UInt64) (f : Interpreter S → U256) : Exec S Unit := do
  consume cost
  let self ← read id
  push (f self)
  advance

def copyOp (source : Interpreter S → List UInt8) : Exec S Unit := do
  let memOffset ← pop
  let dataOffset ← pop
  let size ← pop
  consume (← GasCost.copyGasCost size)
  let source ← read source
  let data ← getSlice source dataOffset size
  let memOffset ← memOffset.asUsize
  onMemory (·.set memOffset data)
  advance

def returnOp (mk : List UInt8 → UInt64 → ExecutionResult) : Exec S Unit := do
  let offset ← pop
  let size ← pop
  let offset ← offset.asUsize
  let size ← size.asUsize
  update fun s => { s with result := some (mk (s.memory.get offset size) s.gas.used) }

def exp : Exec S Unit := do
  let exponent ← pop
  consume (GasCost.expGasCost exponent)
  let base ← pop
  push (base.overflowingPow exponent)
  advance

def keccak [Crypto] : Exec S Unit := do
  let offset ← pop
  let size ← pop
  consume (← GasCost.keccak256GasCost size)
  let offset ← offset.asUsize
  let size ← size.asUsize
  let data ← read (·.memory.get offset size)
  push (.ofHash (keccak256 data))
  advance

def extcodecopy [StateDB S] : Exec S Unit := do
  let address ← pop
  let memOffset ← pop
  let codeOffset ← pop
  let size ← pop
  consume GasCost.EXTCODECOPY
  consume (← GasCost.copyGasCost size)
  let account ← read fun s => StateDB.getAccount s.state (addressFromU256 address)
  let code ← (match account with
    | some account => getSlice account.code codeOffset size
    | none => do
      let size ← size.asUsize
      return List.replicate size 0 : Checked (List UInt8))
  let memOffset ← memOffset.asUsize
  onMemory (·.set memOffset code)
  advance

def returndatacopy : Exec S Unit := do
  let memOffset ← pop
  let dataOffset ← pop
  let size ← pop
  consume (← GasCost.copyGasCost size)
  let returnData ← read (·.returnData)
  if dataOffset.saturatingAdd size > .ofUsize returnData.length then fail .ReturnDataOutOfBounds
  else do
    let data ← getSlice returnData dataOffset size
    let memOffset ← memOffset.asUsize
    onMemory (·.set memOffset data)
    advance

/-- The hash pushed by `BLOCKHASH`; `number - block_number` cannot overflow where it is used. -/
def blockhash (block : BlockContext) (blockNumber : U256) : Checked U256 :=
  if blockNumber ≥ block.number ∨ block.number - blockNumber > 256 then
    return .ofHash H256.zero
  else do
    let index ← blockNumber.asUsize
    return .ofHash (block.blockHashes[index]?.getD H256.zero)

def mstore : Exec S Unit := do
  consume GasCost.VERYLOW
  let offset ← pop
  let value ← pop
  let offset ← offset.asUsize
  onMemory (·.setU256 offset value)
  advance

def mstore8 : Exec S Unit := do
  consume GasCost.VERYLOW
  let offset ← pop
  let value ← pop
  let offset ← offset.asUsize
  onMemory (·.setByte offset (value.byte 31))
  advance

def sstore [StateDB S] : Exec S Unit := do
  if ← read (·.context.isStatic) then fail .StaticCallStateModification
  else do
    let key ← pop
    let value ← pop
    consume GasCost.SSET
    update fun s => { s with
      state := StateDB.setStorage s.state s.context.address (.ofU256 key) (.ofU256 value) }
    advance

def jumpOp : Exec S Unit := do
  consume GasCost.MID
  let dest ← pop
  let dest ← dest.asUsize
  jump dest

def jumpi : Exec S Unit := do
  consume GasCost.HIGH
  let dest ← pop
  let cond ← pop
  if cond.isZero then advance
  else do
    let dest ← dest.asUsize
    jump dest

/-- `PUSH1` to `PUSH32`: the immediate is cut off at the end of the code. -/
def pushBytesOp (op : Opcode) : Exec S Unit := do
  consume GasCost.VERYLOW
  let n ← (match op.pushBytes with
    | some n => .ok n
    | none => .error .unwrap : Checked Nat)
  let pc ← read (·.pc)
  let code ← read (·.context.code)
  let start ← addUsize pc 1
  let stop := min (← addUsize start n) code.length
  let data ← slice code start stop
  push (.fromBigEndian data)
  update fun s => { s with pc := stop }

def popTopics : Nat → Exec S (List H256)
  | 0 => return []
  | n + 1 => do
    let topic ← pop
    let topics ← popTopics n
    return .ofU256 topic :: topics

def logOp (topicCount : Nat) : Exec S Unit := do
  if ← read (·.context.isStatic) then fail .StaticCallStateModification
  else do
    let offset ← pop
    let size ← pop
    let topics ← popTopics topicCount
    consume (← GasCost.logGasCost topicCount size)
    let offset ← offset.asUsize
    let size ← size.asUsize
    update fun s => { s with
      logs := s.logs ++ [⟨s.context.address, topics, s.memory.get offset size⟩] }
    advance

variable [StateDB S] [Crypto]

def balanceOf (s : Interpreter S) (address : Address) : U256 :=
  ((StateDB.getAccount s.state address).map (·.balance)).getD 0

def codeHashOf (s : Interpreter S) (address : Address) : H256 :=
  match StateDB.getAccount s.state address with
  | some account => if account.code.isEmpty then H256.zero else keccak256 account.code
  | none => H256.zero

def codeSizeOf (s : Interpreter S) (address : Address) : Nat :=
  ((StateDB.getAccount s.state address).map (·.code.length)).getD 0

/-- The arm of `execute_opcode` for an opcode. -/
def arm : Opcode → Exec S Unit
  | .STOP => update fun s => { s with result := some (.success [] s.gas.used) }
  | .ADD => binaryOp GasCost.VERYLOW fun a b => return a + b
  | .MUL => binaryOp GasCost.LOW fun a b => return a * b
  | .SUB => binaryOp GasCost.VERYLOW fun a b => return a - b
  | .DIV => binaryOp GasCost.LOW fun a b => return if b.isZero then 0 else a / b
  | .SDIV => binaryOp GasCost.LOW fun a b => return signedDiv a b
  | .MOD => binaryOp GasCost.LOW fun a b => return if b.isZero then 0 else a % b
  | .SMOD => binaryOp GasCost.LOW fun a b => return signedMod a b
  | .ADDMOD => ternaryOp GasCost.MID addmod
  | .MULMOD => ternaryOp GasCost.MID mulmod
  | .EXP => exp
  | .SIGNEXTEND => binaryOp GasCost.LOW fun x ext => signExtend ext x
  | .LT => binaryOp GasCost.VERYLOW fun a b => return boolWord (a < b)
  | .GT => binaryOp GasCost.VERYLOW fun a b => return boolWord (a > b)
  | .SLT => binaryOp GasCost.VERYLOW fun a b => return slt a b
  | .SGT => binaryOp GasCost.VERYLOW fun a b => return sgt a b
  | .EQ => binaryOp GasCost.VERYLOW fun a b => return boolWord (a == b)
  | .ISZERO => unaryOp GasCost.VERYLOW fun _ a => return boolWord a.isZero
  | .AND => binaryOp GasCost.VERYLOW fun a b => return a &&& b
  | .OR => binaryOp GasCost.VERYLOW fun a b => return a ||| b
  | .XOR => binaryOp GasCost.VERYLOW fun a b => return a ^^^ b
  | .NOT => unaryOp GasCost.VERYLOW fun _ a => return ~~~a
  | .BYTE => binaryOp GasCost.VERYLOW fun x i => return byteOf x i
  | .SHL => binaryOp GasCost.VERYLOW fun value shift => return shl value shift
  | .SHR => binaryOp GasCost.VERYLOW fun value shift => return shr value shift
  | .SAR => binaryOp GasCost.VERYLOW fun value shift => return arithmeticShr value shift
  | .KECCAK256 => keccak
  | .ADDRESS => pushOp GasCost.BASE fun s => .ofHash s.context.address
  | .BALANCE => queryOp GasCost.BALANCE fun s a => return s.balanceOf (addressFromU256 a)
  | .ORIGIN => pushOp GasCost.BASE fun s => .ofHash s.context.origin
  | .CALLER => pushOp GasCost.BASE fun s => .ofHash s.context.caller
  | .CALLVALUE => pushOp GasCost.BASE (·.context.value)
  | .CALLDATALOAD => unaryOp GasCost.VERYLOW fun s offset =>
    .fromBigEndian <$> getSlice s.context.data offset 32
  | .CALLDATASIZE => pushOp GasCost.BASE fun s => .ofUsize s.context.data.length
  | .CALLDATACOPY => copyOp (·.context.data)
  | .CODESIZE => pushOp GasCost.BASE fun s => .ofUsize s.context.code.length
  | .CODECOPY => copyOp (·.context.code)
  | .GASPRICE => pushOp GasCost.BASE (·.context.gasPrice)
  | .EXTCODESIZE => queryOp GasCost.EXTCODESIZE fun s a =>
    return .ofUsize (s.codeSizeOf (addressFromU256 a))
  | .EXTCODECOPY => extcodecopy
  | .RETURNDATASIZE => pushOp GasCost.BASE fun s => .ofUsize s.returnData.length
  | .RETURNDATACOPY => returndatacopy
  | .EXTCODEHASH => queryOp GasCost.EXTCODEHASH fun s a =>
    return .ofHash (s.codeHashOf (addressFromU256 a))
  | .BLOCKHASH => queryOp GasCost.BLOCKHASH fun s a => blockhash s.context.block a
  | .COINBASE => pushOp GasCost.BASE fun s => .ofHash s.context.block.coinbase
  | .TIMESTAMP => pushOp GasCost.BASE (·.context.block.timestamp)
  | .NUMBER => pushOp GasCost.BASE (·.context.block.number)
  | .DIFFICULTY => pushOp GasCost.BASE (·.context.block.difficulty)
  | .GASLIMIT => pushOp GasCost.BASE (·.context.block.gasLimit)
  | .CHAINID => pushOp GasCost.CHAINID (·.context.block.chainId)
  | .SELFBALANCE => pushOp GasCost.SELFBALANCE fun s => s.balanceOf s.context.address
  | .BASEFEE => pushOp GasCost.BASEFEE (·.context.block.baseFee.getD 0)
  | .POP => do
    consume GasCost.BASE
    let _ ← pop
    advance
  | .MLOAD => unaryOp GasCost.VERYLOW fun s offset => s.memory.getU256 <$> offset.asUsize
  | .MSTORE => mstore
  | .MSTORE8 => mstore8
  | .SLOAD => queryOp GasCost.SLOAD fun s key =>
    return .ofHash (StateDB.getStorage s.state s.context.address (.ofU256 key))
  | .SSTORE => sstore
  | .JUMP => jumpOp
  | .JUMPI => jumpi
  | .PC => pushOp GasCost.BASE fun s => .ofUsize s.pc
  | .MSIZE => pushOp GasCost.BASE (·.memory.effectiveLen)
  | .GAS => pushOp GasCost.BASE fun s => .ofU64 s.gas.remaining
  | .JUMPDEST => do
    consume GasCost.JUMPDEST
    advance
  | .PUSH0 => pushOp GasCost.BASE fun _ => 0
  | .PUSH n => pushBytesOp (.PUSH n)
  | .DUP n => do
    consume GasCost.VERYLOW
    onStack (·.dup n)
    advance
  | .SWAP n => do
    consume GasCost.VERYLOW
    onStack (·.swap (n + 1))
    advance
  | .LOG n => logOp n
  | .RETURN => returnOp .success
  | .REVERT => returnOp .revert
  -- the catch-all arm: these opcodes do nothing and cost nothing
  | .BLOBHASH | .BLOBBASEFEE | .TLOAD | .TSTORE | .MCOPY | .CREATE | .CALL | .CALLCODE
  | .DELEGATECALL | .CREATE2 | .STATICCALL | .INVALID | .SELFDESTRUCT => advance

def prologue (op : Opcode) : Exec S Unit := do
  checkStack (·.require op.stackInputs)
  checkStack (·.limitCheck (op.stackOutputs - op.stackInputs))

def executeOpcode (op : Opcode) : Exec S Unit := do
  prologue op
  arm op

def handleError (s : Interpreter S) : EvmError → ExecutionResult
  | .OutOfGas => .halt .OutOfGas s.gas.limit
  | .StackOverflow => .halt .StackOverflow s.gas.used
  | .StackUnderflow => .halt .StackUnderflow s.gas.used
  | .InvalidJump _ => .halt .InvalidJump s.gas.used
  | .InvalidOpcode byte => .halt (.InvalidOpcode byte) s.gas.used
  | .StaticCallStateModification => .halt .StateModificationInStatic s.gas.used
  | _ => .halt .InvalidCode s.gas.used

abbrev RunOutcome (S : Type) := Outcome (Interpreter S) EvmError ExecutionResult

def finish (s : Interpreter S) : RunOutcome S :=
  .ok (s.result.getD (.success [] s.gas.used)) { s with result := none }

def afterOpcode :
    Outcome (Interpreter S) EvmError Unit → Loop.Turn (Interpreter S) (RunOutcome S)
  | .ok _ s => if s.result.isSome then .done s.finish else .next s
  | .err e s => .done (.ok (s.handleError e) s)
  | .panic p => .done (.panic p)

/-- One turn of the loop of `run`. -/
def turn (s : Interpreter S) : Loop.Turn (Interpreter S) (RunOutcome S) :=
  if h : s.pc < s.context.code.length then
    let opcodeByte := s.context.code[s.pc]
    match Opcode.fromU8 opcodeByte with
    | none => .done (.ok (.halt (.InvalidOpcode opcodeByte) s.gas.used) s)
    | some opcode => afterOpcode (executeOpcode opcode s)
  else .done s.finish

def run (fuel : Nat) (s : Interpreter S) : Option (RunOutcome S) := Loop.exec turn fuel s

end Interpreter

end EthereumRust.Evm
