import EthereumRust.Crypto
import EthereumRust.Lib.Call

/-!
# Nodes and commitments of the Verkle tree (`crates/verkle`: `node.rs`, `commitment.rs`)

A node is created with an empty commitment. What is committed to is one byte string for each kind of
node, built from the commitments that its children have at that moment; KZG commits to it by its
hash, IPA by a linear combination of its bytes.
-/

namespace EthereumRust.Verkle
open Rust

inductive CommitmentScheme where
  | ipa
  | kzg
  deriving DecidableEq, Repr

structure VerkleConfig where
  width : Nat
  keyLength : Nat
  commitmentScheme : CommitmentScheme
  enableCache : Bool
  cacheSize : Nat
  deriving DecidableEq

def VerkleConfig.default : VerkleConfig where
  width := 256
  keyLength := 32
  commitmentScheme := .ipa
  enableCache := true
  cacheSize := 10000

inductive VerkleError where
  | invalidKey (message : String)
  | invalidProof (message : String)
  | nodeNotFound (message : String)
  | migrationFailed (message : String)
  | commitmentError (message : String)
  | databaseError (message : String)
  deriving DecidableEq, Repr

inductive CommitmentType where
  | ipa
  | kzg
  | empty
  deriving DecidableEq, Repr

structure Commitment where
  value : Bytes
  commitmentType : CommitmentType
  deriving DecidableEq

def Commitment.default : Commitment := ⟨[], .empty⟩

/-- The vector of 256 children is a function of the byte that indexes it. -/
inductive VerkleNode where
  | extension (stem : Bytes) (suffixTree : Option VerkleNode) (commitment : Commitment)
  | branch (children : UInt8 → Option VerkleNode) (value : Option Bytes) (commitment : Commitment)
  | leaf (value : Bytes) (commitment : Commitment)

namespace VerkleNode

def commitment : VerkleNode → Commitment
  | extension _ _ commitment => commitment
  | branch _ _ commitment => commitment
  | leaf _ commitment => commitment

def setCommitment (commitment : Commitment) : VerkleNode → VerkleNode
  | extension stem suffixTree _ => extension stem suffixTree commitment
  | branch children value _ => branch children value commitment
  | leaf value _ => leaf value commitment

def newExtension (stem : Bytes) : VerkleNode := extension stem none .default

def newBranch : VerkleNode := branch (fun _ => none) none .default

def newLeaf (value : Bytes) : VerkleNode := leaf value .default

def newPath (stem value : Bytes) : VerkleNode := extension stem (some (newLeaf value)) .default

end VerkleNode

def allBytes : List UInt8 := (List.range 256).map UInt8.ofNat

structure IPAParams where
  basis : List Bytes
  domainSize : Nat

def IPAParams.new [Build] (width : Nat) : Checked IPAParams := do
  let basis ← (List.range width).mapM fun i => do
    let entry ← plusU8 (.ofNat (i / 32)) 1
    return (List.replicate 32 0).set (i % 32) entry
  return { basis, domainSize := width }

structure KZGParams where
  domainSize : Nat

def KZGParams.new (width : Nat) : KZGParams := ⟨width⟩

structure VerkleCommitment where
  config : VerkleConfig
  ipaParams : Option IPAParams
  kzgParams : Option KZGParams

namespace VerkleCommitment

def new [Build] (config : VerkleConfig) : Checked VerkleCommitment := do
  match config.commitmentScheme with
  | .ipa =>
    let params ← IPAParams.new config.width
    return { config, ipaParams := some params, kzgParams := none }
  | .kzg => return { config, ipaParams := none, kzgParams := some (.new config.width) }

def addRow (value row : Bytes) (byte : UInt8) : Bytes :=
  value.mapIdx fun j entry =>
    match row[j]? with
    | some factor => entry ^^^ factor * byte
    | none => entry

def combineRows (basis : List Bytes) (data : Bytes) : Bytes :=
  data.zipIdx.foldl (fun value entry =>
    match basis[entry.2]? with
    | some row => addRow value row entry.1
    | none => value) (List.replicate 32 0)

section
variable [Crypto] (self : VerkleCommitment)

def computeIpaCommitment (data : Bytes) : Call VerkleError Commitment :=
  match self.ipaParams with
  | none => Call.fail (.commitmentError "IPA params not initialized")
  | some params => .ok ⟨combineRows params.basis data, .ipa⟩

def computeKzgCommitment (data : Bytes) : Call VerkleError Commitment :=
  match self.kzgParams with
  | none => Call.fail (.commitmentError "KZG params not initialized")
  | some _ => .ok ⟨(keccak256 data).toList, .kzg⟩

def commitTo (data : Bytes) : Call VerkleError Commitment :=
  match self.config.commitmentScheme with
  | .ipa => self.computeIpaCommitment data
  | .kzg => self.computeKzgCommitment data

def computeExtensionCommitment (stem : Bytes) (suffix : Option VerkleNode) :
    Call VerkleError Commitment :=
  self.commitTo (stem ++ match suffix with | some node => node.commitment.value | none => [])

def computeBranchCommitment (children : List Commitment) (value : Option Bytes) :
    Call VerkleError Commitment :=
  self.commitTo (children.flatMap Commitment.value ++ value.getD [])

def computeLeafCommitment (value : Bytes) : Call VerkleError Commitment := self.commitTo value

def computeNodeCommitment : VerkleNode → Call VerkleError Commitment
  | .extension stem suffixTree _ => self.computeExtensionCommitment stem suffixTree
  | .branch children value _ =>
    let childrenCommitments := allBytes.map fun i =>
      match children i with
      | some child => child.commitment
      | none => .default
    self.computeBranchCommitment childrenCommitments value
  | .leaf value _ => self.computeLeafCommitment value

def combineCommitments (left right : Commitment) : Call VerkleError Commitment :=
  self.commitTo (left.value ++ right.value)

end

end VerkleCommitment

end EthereumRust.Verkle
