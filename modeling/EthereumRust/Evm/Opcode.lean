import Mathlib.Order.Basic

/-!
# Opcodes (`crates/evm/src/opcodes.rs`)

The four numbered families of the source's enumeration are one constructor each, indexed from
the first member: `PUSH n` is `PUSH{n+1}`, `DUP n` is `DUP{n+1}`, `SWAP n` is `SWAP{n+1}` and
`LOG n` is `LOG{n}`. `PUSH0` stands apart, as it does in the source.
-/

namespace EthereumRust.Evm

inductive Opcode where
  | STOP | ADD | MUL | SUB | DIV | SDIV | MOD | SMOD | ADDMOD | MULMOD | EXP | SIGNEXTEND
  | LT | GT | SLT | SGT | EQ | ISZERO | AND | OR | XOR | NOT | BYTE | SHL | SHR | SAR
  | KECCAK256
  | ADDRESS | BALANCE | ORIGIN | CALLER | CALLVALUE | CALLDATALOAD | CALLDATASIZE | CALLDATACOPY
  | CODESIZE | CODECOPY | GASPRICE | EXTCODESIZE | EXTCODECOPY | RETURNDATASIZE | RETURNDATACOPY
  | EXTCODEHASH
  | BLOCKHASH | COINBASE | TIMESTAMP | NUMBER | DIFFICULTY | GASLIMIT | CHAINID | SELFBALANCE
  | BASEFEE | BLOBHASH | BLOBBASEFEE
  | POP | MLOAD | MSTORE | MSTORE8 | SLOAD | SSTORE | JUMP | JUMPI | PC | MSIZE | GAS | JUMPDEST
  | TLOAD | TSTORE | MCOPY
  | PUSH0
  | PUSH (n : Fin 32)
  | DUP (n : Fin 16)
  | SWAP (n : Fin 16)
  | LOG (n : Fin 5)
  | CREATE | CALL | CALLCODE | RETURN | DELEGATECALL | CREATE2 | STATICCALL | REVERT | INVALID
  | SELFDESTRUCT
  deriving DecidableEq, Repr

namespace Opcode

def jumpdestByte : UInt8 := 0x5b

def fromU8 (byte : UInt8) : Option Opcode :=
  match byte.toNat with
  | 0x00 => some .STOP
  | 0x01 => some .ADD
  | 0x02 => some .MUL
  | 0x03 => some .SUB
  | 0x04 => some .DIV
  | 0x05 => some .SDIV
  | 0x06 => some .MOD
  | 0x07 => some .SMOD
  | 0x08 => some .ADDMOD
  | 0x09 => some .MULMOD
  | 0x0a => some .EXP
  | 0x0b => some .SIGNEXTEND
  | 0x10 => some .LT
  | 0x11 => some .GT
  | 0x12 => some .SLT
  | 0x13 => some .SGT
  | 0x14 => some .EQ
  | 0x15 => some .ISZERO
  | 0x16 => some .AND
  | 0x17 => some .OR
  | 0x18 => some .XOR
  | 0x19 => some .NOT
  | 0x1a => some .BYTE
  | 0x1b => some .SHL
  | 0x1c => some .SHR
  | 0x1d => some .SAR
  | 0x20 => some .KECCAK256
  | 0x30 => some .ADDRESS
  | 0x31 => some .BALANCE
  | 0x32 => some .ORIGIN
  | 0x33 => some .CALLER
  | 0x34 => some .CALLVALUE
  | 0x35 => some .CALLDATALOAD
  | 0x36 => some .CALLDATASIZE
  | 0x37 => some .CALLDATACOPY
  | 0x38 => some .CODESIZE
  | 0x39 => some .CODECOPY
  | 0x3a => some .GASPRICE
  | 0x3b => some .EXTCODESIZE
  | 0x3c => some .EXTCODECOPY
  | 0x3d => some .RETURNDATASIZE
  | 0x3e => some .RETURNDATACOPY
  | 0x3f => some .EXTCODEHASH
  | 0x40 => some .BLOCKHASH
  | 0x41 => some .COINBASE
  | 0x42 => some .TIMESTAMP
  | 0x43 => some .NUMBER
  | 0x44 => some .DIFFICULTY
  | 0x45 => some .GASLIMIT
  | 0x46 => some .CHAINID
  | 0x47 => some .SELFBALANCE
  | 0x48 => some .BASEFEE
  | 0x49 => some .BLOBHASH
  | 0x4a => some .BLOBBASEFEE
  | 0x50 => some .POP
  | 0x51 => some .MLOAD
  | 0x52 => some .MSTORE
  | 0x53 => some .MSTORE8
  | 0x54 => some .SLOAD
  | 0x55 => some .SSTORE
  | 0x56 => some .JUMP
  | 0x57 => some .JUMPI
  | 0x58 => some .PC
  | 0x59 => some .MSIZE
  | 0x5a => some .GAS
  | 0x5b => some .JUMPDEST
  | 0x5c => some .TLOAD
  | 0x5d => some .TSTORE
  | 0x5e => some .MCOPY
  | 0x5f => some .PUSH0
  | 0xf0 => some .CREATE
  | 0xf1 => some .CALL
  | 0xf2 => some .CALLCODE
  | 0xf3 => some .RETURN
  | 0xf4 => some .DELEGATECALL
  | 0xf5 => some .CREATE2
  | 0xfa => some .STATICCALL
  | 0xfd => some .REVERT
  | 0xfe => some .INVALID
  | 0xff => some .SELFDESTRUCT
  | n =>
    -- the ranges that the source transmutes
    if h : 0x60 ≤ n ∧ n ≤ 0x7f then some (.PUSH ⟨n - 0x60, by omega⟩)
    else if h : 0x80 ≤ n ∧ n ≤ 0x8f then some (.DUP ⟨n - 0x80, by omega⟩)
    else if h : 0x90 ≤ n ∧ n ≤ 0x9f then some (.SWAP ⟨n - 0x90, by omega⟩)
    else if h : 0xa0 ≤ n ∧ n ≤ 0xa4 then some (.LOG ⟨n - 0xa0, by omega⟩)
    else none

def pushBytes : Opcode → Option Nat
  | .PUSH n => some (n + 1)
  | _ => none

def stackInputs : Opcode → Nat
  | .STOP => 0
  | .ADD | .MUL | .SUB | .DIV | .SDIV | .MOD | .SMOD => 2
  | .ADDMOD | .MULMOD => 3
  | .EXP | .SIGNEXTEND => 2
  | .LT | .GT | .SLT | .SGT | .EQ => 2
  | .ISZERO | .NOT => 1
  | .AND | .OR | .XOR => 2
  | .BYTE => 2
  | .SHL | .SHR | .SAR => 2
  | .KECCAK256 => 2
  | .ADDRESS | .ORIGIN | .CALLER | .CALLVALUE => 0
  | .CALLDATALOAD => 1
  | .CALLDATASIZE | .CODESIZE => 0
  | .CALLDATACOPY | .CODECOPY => 3
  | .GASPRICE => 0
  | .EXTCODESIZE | .BALANCE | .EXTCODEHASH => 1
  | .EXTCODECOPY => 4
  | .RETURNDATASIZE => 0
  | .RETURNDATACOPY => 3
  | .BLOCKHASH => 1
  | .COINBASE | .TIMESTAMP | .NUMBER | .DIFFICULTY | .GASLIMIT => 0
  | .CHAINID | .SELFBALANCE | .BASEFEE => 0
  | .BLOBHASH => 1
  | .BLOBBASEFEE => 0
  | .POP => 1
  | .MLOAD | .SLOAD => 1
  | .MSTORE | .SSTORE => 2
  | .MSTORE8 => 2
  | .JUMP => 1
  | .JUMPI => 2
  | .PC | .MSIZE | .GAS => 0
  | .JUMPDEST => 0
  | .TLOAD => 1
  | .TSTORE => 2
  | .MCOPY => 3
  | .PUSH0 | .PUSH _ => 0
  | .DUP n => n + 1
  | .SWAP n => n + 2
  | .LOG n => n + 2
  | .CREATE => 3
  | .CALL | .CALLCODE => 7
  | .RETURN | .REVERT => 2
  | .DELEGATECALL | .STATICCALL => 6
  | .CREATE2 => 4
  | .SELFDESTRUCT => 1
  | .INVALID => 0

def stackOutputs : Opcode → Nat
  | .STOP | .JUMP | .JUMPI | .RETURN | .REVERT | .SELFDESTRUCT | .SSTORE | .POP | .MSTORE
  | .MSTORE8 | .CALLDATACOPY | .CODECOPY | .EXTCODECOPY | .RETURNDATACOPY | .LOG _ | .JUMPDEST
  | .TSTORE | .MCOPY => 0
  | .PUSH0 | .PUSH _ => 1
  | .DUP n => n + 2
  | .SWAP n => n + 2
  | .CREATE | .CREATE2 | .CALL | .CALLCODE | .DELEGATECALL | .STATICCALL => 1
  | .INVALID => 0
  | _ => 1

end Opcode

end EthereumRust.Evm
