import EthereumRust.Consensus.Config

/-!
# The proof-of-stake engine (`crates/consensus`: `pos.rs`)

Attestations are verified one by one and kept for ever. `check_finality` counts, for each target
root of the current epoch, the attestations it has kept. All it does with a root that has enough of
them is to log it: here the logged checkpoints are the result.

The random generator behind the committees is a parameter whose outputs lie in the requested range.
-/

namespace EthereumRust.Consensus
open Rust EthereumRust.Core

class SeedableRng where
  Rng : Type
  seedFromU64 : UInt64 → Rng
  genRange (last : Nat) : Rng → Fin (last + 1) × Rng

export SeedableRng (Rng seedFromU64 genRange)

structure Checkpoint where
  epoch : UInt64
  root : H256
  deriving DecidableEq

structure ProofOfStake.Attestation where
  slot : UInt64
  validator : Address
  beaconBlockRoot : H256
  sourceCheckpoint : Checkpoint
  targetCheckpoint : Checkpoint
  signature : Signature
  deriving DecidableEq

structure ProofOfStake where
  config : ConsensusConfig
  validators : List Address
  validatorStakes : HashMap Address U256
  epoch : UInt64
  slot : UInt64
  attestations : List ProofOfStake.Attestation

namespace ProofOfStake

def new (config : ConsensusConfig) : ProofOfStake where
  config
  validators := config.validators
  validatorStakes := config.validators.foldl
    (fun stakes validator => stakes.insert validator (32000000000000000000 : U256)) ∅
  epoch := 0
  slot := 0
  attestations := []

def swapRemove (indices : List Nat) (idx : Nat) : List Nat :=
  (indices.set idx (indices.getLastD 0)).dropLast

def drawCommittee [SeedableRng] (validators : List Address) :
    Nat → List Nat → Rng → Checked (List Address)
  | 0, _, _ => .ok []
  | _ + 1, [], _ => .error .assertion
  | size + 1, first :: rest, rng => do
    let (idx, rng) := genRange rest.length rng
    let validatorIdx := (first :: rest).getD idx 0
    match validators[validatorIdx]? with
    | none => .error .slice
    | some validator =>
      let committee ← drawCommittee validators size (swapRemove (first :: rest) idx) rng
      return validator :: committee

def getCommittee [SeedableRng] (self : ProofOfStake) (slot : UInt64) : Checked (List Address) :=
  if self.validators.length ≤ 128 then .ok self.validators
  else
    let committeeSize := min 128 (self.validators.length / 2)
    drawCommittee self.validators committeeSize (List.range self.validators.length)
      (seedFromU64 slot)

def toLeBytes (value : UInt64) : Bytes := (toBigEndian 8 value.toNat).reverse

def attestationMessage [Crypto] (attestation : Attestation) : H256 :=
  keccak256 (toLeBytes attestation.slot ++ attestation.beaconBlockRoot.toList ++
    toLeBytes attestation.sourceCheckpoint.epoch ++ attestation.sourceCheckpoint.root.toList ++
    toLeBytes attestation.targetCheckpoint.epoch ++ attestation.targetCheckpoint.root.toList)

def verifyAttestation [Crypto] [Recovery] [SeedableRng] (self : ProofOfStake)
    (attestation : Attestation) : Checked (Except ConsensusError Unit) := do
  let committee ← self.getCommittee attestation.slot
  if !committee.contains attestation.validator then
    return .error (.invalidValidator "Validator not in committee")
  match recoverAddress (attestationMessage attestation) attestation.signature with
  | .error _ => return .error (.invalidSignature "Failed to recover attestation signer")
  | .ok recovered =>
    if recovered ≠ attestation.validator then
      return .error (.invalidSignature "Invalid attestation signature")
    return .ok ()

def acceptAll [Crypto] [Recovery] [SeedableRng] (self : ProofOfStake) :
    List Attestation → Checked (List Attestation)
  | [] => .ok []
  | attestation :: rest => do
    let verified ← self.verifyAttestation attestation
    let accepted ← self.acceptAll rest
    match verified with
    | .ok () => return attestation :: accepted
    | .error _ => return accepted

def attestationCount (epoch : UInt64) (attestations : List Attestation) : HashMap H256 Nat :=
  attestations.foldl (fun counts attestation =>
    let root := attestation.targetCheckpoint.root
    if attestation.targetCheckpoint.epoch = epoch then
      counts.insert root ((counts.lookup root).getD 0 + 1)
    else counts) ∅

def threshold (self : ProofOfStake) : Nat := self.validators.length * 2 / 3

/-- `check_finality`: the current epoch and the roots that are logged as justified in it. -/
def checkFinality (self : ProofOfStake) : Checked (UInt64 × Finset H256) := do
  let currentEpoch ← divU64 self.slot self.config.epochLength
  let counts := attestationCount currentEpoch self.attestations
  return (currentEpoch, counts.keys.filter fun root => self.threshold ≤ (counts.lookup root).getD 0)

def processAttestations [Crypto] [Recovery] [SeedableRng] (self : ProofOfStake)
    (attestations : List Attestation) : Checked ((UInt64 × Finset H256) × ProofOfStake) := do
  let accepted ← self.acceptAll attestations
  let self := { self with attestations := self.attestations ++ accepted }
  let justified ← self.checkFinality
  return (justified, self)

end ProofOfStake

end EthereumRust.Consensus
