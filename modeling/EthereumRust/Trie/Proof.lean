import EthereumRust.Trie.Trie

/-!
# Merkle proofs (`crates/trie`: `proof.rs`)

As in the trie, `key` stands for the nibbles from `key_index` on, and the recursive functions take
the number of stack frames left.
-/

namespace EthereumRust.Trie
open Rust

structure MerkleProof where
  nodes : List Bytes
  deriving DecidableEq, Repr

namespace MerkleProof

def new : MerkleProof := ⟨[]⟩

def addNode (self : MerkleProof) (encoded : Bytes) : MerkleProof := ⟨self.nodes ++ [encoded]⟩

variable [ListHeader]

def resolveProofNode (self : MerkleProof) (nodeRef : NodeRef) (proofIndex : Nat) :
    Call TrieError Node :=
  match nodeRef with
  | .inline node => .ok node
  | .hash _ =>
    match self.nodes[proofIndex]? with
    | none => Call.fail .invalidProof
    | some data => Node.decodeRaw data

def verifyAtNode (self : MerkleProof) :
    Nat → Node → Nibbles → Nat → Call TrieError (Option Bytes)
  | 0, _, _, _ => .error .overflow
  | _ + 1, .empty, _, _ => .ok none
  | _ + 1, .leaf leafKey value, key, _ => .ok (if key = leafKey then some value else none)
  | frames + 1, .extension extKey childRef, key, proofIndex =>
    let commonLen := extKey.commonPrefixLen key
    if commonLen = extKey.length then do
      let child ← self.resolveProofNode childRef proofIndex
      self.verifyAtNode frames child (key.drop commonLen) (proofIndex + 1)
    else .ok none
  | _ + 1, .branch _ value, [], _ => .ok value
  | frames + 1, .branch children _, nibble :: key, proofIndex =>
    match children nibble with
    | none => .ok none
    | some childRef => do
      let child ← self.resolveProofNode childRef proofIndex
      self.verifyAtNode frames child key (proofIndex + 1)

def verify [Crypto] (self : MerkleProof) (frames : Nat) (rootHash : H256) (key : Bytes)
    (expectedValue : Option Bytes) : Call TrieError Bool :=
  match self.nodes with
  | [] => .ok false
  | first :: _ => do
    let firstNode ← Node.decodeRaw first
    if firstNode.hash ≠ rootHash then return false
    let value ← self.verifyAtNode frames firstNode (Nibbles.fromBytes key) 1
    match value, expectedValue with
    | some v, some exp => return v == exp
    | none, none => return true
    | _, _ => return false

end MerkleProof

section
variable [ListHeader] (loadNode : H256 → Call TrieError Bytes)

def proofChild : NodeRef → Call TrieError Node
  | .inline child => .ok child
  | .hash hash => do
    let childData ← loadNode hash
    Node.decodeRaw childData

/-- The proof is a `&mut` argument; a call that succeeds returns it. In the arm for branches the
source has the result of the recursive call where the compiler wants `()`: here it is returned, as
in the arm for extensions. -/
def collectProofNodes : Nat → Node → Nibbles → MerkleProof → Call TrieError MerkleProof
  | 0, _, _, _ => .error .overflow
  | _ + 1, .empty, _, proof => .ok (proof.addNode Node.empty.encodeRaw)
  | _ + 1, .leaf key value, _, proof => .ok (proof.addNode (Node.leaf key value).encodeRaw)
  | frames + 1, .extension extKey childRef, key, proof =>
    let proof := proof.addNode (Node.extension extKey childRef).encodeRaw
    let commonLen := extKey.commonPrefixLen key
    if commonLen = extKey.length then do
      let child ← proofChild loadNode childRef
      collectProofNodes frames child (key.drop commonLen) proof
    else .ok proof
  | _ + 1, .branch children value, [], proof =>
    .ok (proof.addNode (Node.branch children value).encodeRaw)
  | frames + 1, .branch children value, nibble :: key, proof =>
    let proof := proof.addNode (Node.branch children value).encodeRaw
    match children nibble with
    | none => .ok proof
    | some childRef => do
      let child ← proofChild loadNode childRef
      collectProofNodes frames child key proof

def generateProof (frames : Nat) (root : Node) (key : Bytes) : Call TrieError MerkleProof :=
  collectProofNodes loadNode frames root (Nibbles.fromBytes key) .new

end

end EthereumRust.Trie
