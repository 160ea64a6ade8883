import EthereumRust.Core.Block

/-!
# Configuration and errors of the consensus engines (`crates/consensus`: `lib.rs`)

The engines read the header fields `author`, `uncles_hash` and `bloom`. The header of `crates/core`
calls them `beneficiary`, `ommers_hash` and `logs_bloom`, and has the transactions and uncles of the
engines' `BlockBody` in the block itself.
-/

namespace EthereumRust.Consensus
open Rust EthereumRust.Core

inductive EngineType where
  | proofOfStake
  | proofOfAuthority
  | clique
  deriving DecidableEq, Repr

structure ConsensusConfig where
  engineType : EngineType
  epochLength : UInt64
  blockPeriod : UInt64
  validators : List Address
  genesisValidators : List Address
  deriving DecidableEq

inductive ConsensusError where
  | invalidBlock (message : String)
  | invalidSignature (message : String)
  | invalidValidator (message : String)
  | forkChoiceError (message : String)
  deriving DecidableEq, Repr

def debugAddress (address : Address) : String :=
  let digits := address.toList.flatMap fun byte =>
    [Nat.digitChar (byte.toNat / 16), Nat.digitChar (byte.toNat % 16)]
  "Address(0x" ++ String.ofList digits ++ ")"

def emptyUnclesHash : H256 :=
  ⟨[0x1d, 0xcc, 0x4d, 0xe8, 0xde, 0xc7, 0x5d, 0x7a,
    0xab, 0x85, 0xb5, 0x67, 0xb6, 0xcc, 0xd4, 0x1a,
    0xd3, 0x12, 0x45, 0x1b, 0x94, 0x8a, 0x74, 0x13,
    0xf0, 0xa1, 0x42, 0xfd, 0x40, 0xd4, 0x93, 0x47], rfl⟩

def signatureFromBytes (bytes : Bytes) : Except CryptoError Signature :=
  if h : bytes.length = 65 then
    .ok { r := ⟨bytes.take 32, by simp [h]⟩
          s := ⟨(bytes.drop 32).take 32, by simp [h]⟩
          v := bytes.get ⟨64, by omega⟩ }
  else .error .invalidSignature

def sampleConfig (engineType : EngineType) (validators : List Nat) : ConsensusConfig where
  engineType
  epochLength := 30000
  blockPeriod := 15
  validators := validators.map fun validator => addressFromU256 (.ofNat 256 validator)
  genesisValidators := []

end EthereumRust.Consensus
