import EthereumRust.Verkle.Node

/-!
# The Verkle tree (`crates/verkle`: `tree.rs`)

The recursive functions pass the whole key along with the number of bytes that the path from the
root has used. Each function on nodes comes with one on the place of a node, which can be vacant.
-/

namespace EthereumRust.Verkle
open Rust

structure VerkleProof where
  key : Bytes
  value : Option Bytes
  proofNodes : List (Bytes × Commitment)
  rootCommitment : Commitment
  deriving DecidableEq

def commonPrefix (a b : Bytes) : Nat := ((a.zip b).takeWhile fun (x, y) => x == y).length

def splitExtension (stem : Bytes) (suffixTree : Option VerkleNode) (commitment : Commitment)
    (key value : Bytes) (depth common : Nat) : Checked VerkleNode := do
  let newStem ← slice stem 0 common
  let children ← if common < stem.length then do
      let oldIndex ← byteAt stem common
      let oldStem ← slice stem (common + 1) stem.length
      let oldExt := VerkleNode.extension oldStem suffixTree .default
      pure (Function.update (fun _ => none) oldIndex (some oldExt))
    else pure fun _ => none
  let newIndex ← byteAt key (depth + common)
  let remainingKey ← slice key (depth + common + 1) key.length
  let children := Function.update children newIndex (some (.newPath remainingKey value))
  return .extension newStem (some (.branch children none .default)) commitment

def keyPart (key stem : Bytes) (depth : Nat) : Checked Bytes := do
  let left ← subUsize key.length depth
  slice key depth (depth + min stem.length left)

def isNodeEmpty : VerkleNode → Bool
  | .extension _ suffixTree _ => suffixTree.isNone
  | .branch children value _ => value.isNone && allBytes.all fun i => (children i).isNone
  | .leaf _ _ => false

namespace VerkleCommitment

section
variable [Crypto] (self : VerkleCommitment)

def updateCommitment (node : VerkleNode) : Call VerkleError VerkleNode := do
  let commitment ← self.computeNodeCommitment node
  return node.setCommitment commitment

/-- `insert_recursive` on the branch that an extension without a suffix tree has just been given. -/
def insertNewBranch (key value : Bytes) (depth : Nat) : Call VerkleError VerkleNode := do
  if key.length ≤ depth then
    self.updateCommitment (.branch (fun _ => none) (some value) .default)
  else
    let index ← byteAt key depth
    let remainingKey ← slice key (depth + 1) key.length
    let children := Function.update (fun _ => none) index (some (.newPath remainingKey value))
    self.updateCommitment (.branch children none .default)

mutual

def insertRecursive : VerkleNode → Bytes → Bytes → Nat → Call VerkleError VerkleNode
  | .extension stem suffixTree commitment, key, value, depth => do
    let rest ← slice key depth key.length
    let common := commonPrefix stem rest
    if common = stem.length then
      let suffix ← insertSuffix suffixTree key value (depth + common)
      self.updateCommitment (.extension stem (some suffix) commitment)
    else
      let node ← splitExtension stem suffixTree commitment key value depth common
      self.updateCommitment node
  | .branch children branchValue commitment, key, value, depth => do
    if key.length ≤ depth then
      self.updateCommitment (.branch children (some value) commitment)
    else
      let index ← byteAt key depth
      let child ← insertChild (children index) key value depth
      self.updateCommitment (.branch (Function.update children index (some child)) branchValue
        commitment)
  | .leaf _ commitment, _, value, _ => self.updateCommitment (.leaf value commitment)

def insertSuffix : Option VerkleNode → Bytes → Bytes → Nat → Call VerkleError VerkleNode
  | none, key, value, depth => self.insertNewBranch key value depth
  | some suffix, key, value, depth => insertRecursive suffix key value depth

def insertChild : Option VerkleNode → Bytes → Bytes → Nat → Call VerkleError VerkleNode
  | none, key, value, depth => do
    let remainingKey ← slice key (depth + 1) key.length
    return .newPath remainingKey value
  | some child, key, value, depth => insertRecursive child key value (depth + 1)

end

def updateIfDeleted (node : VerkleNode) (deleted : Bool) :
    Call VerkleError (VerkleNode × Bool) := do
  if deleted then
    let node ← self.updateCommitment node
    return (node, true)
  else return (node, false)

mutual

def deleteRecursive : VerkleNode → Bytes → Nat → Call VerkleError (VerkleNode × Bool)
  | .extension stem suffixTree commitment, key, depth => do
    let part ← keyPart key stem depth
    if part = stem then
      let (suffixTree, deleted) ← deleteSlot suffixTree key (depth + stem.length)
      self.updateIfDeleted (.extension stem suffixTree commitment) deleted
    else self.updateIfDeleted (.extension stem suffixTree commitment) false
  | .branch children branchValue commitment, key, depth => do
    if key.length ≤ depth then
      self.updateIfDeleted (.branch children none commitment) branchValue.isSome
    else
      let index ← byteAt key depth
      let (child, deleted) ← deleteSlot (children index) key (depth + 1)
      let child := if deleted && child.any isNodeEmpty then none else child
      self.updateIfDeleted (.branch (Function.update children index child) branchValue commitment)
        deleted
  | .leaf value commitment, _, _ => self.updateIfDeleted (.leaf value commitment) true

def deleteSlot : Option VerkleNode → Bytes → Nat → Call VerkleError (Option VerkleNode × Bool)
  | none, _, _ => .ok (none, false)
  | some node, key, depth => do
    let (node, deleted) ← deleteRecursive node key depth
    return (some node, deleted)

end

def reconstructCommitmentFromProof (proof : VerkleProof) : Call VerkleError Commitment := do
  let current ← match proof.value with
    | some value => self.computeLeafCommitment value
    | none => pure .default
  proof.proofNodes.reverse.foldlM
    (fun current node => self.combineCommitments current node.2) current

def verifyProof (proof : VerkleProof) : Call VerkleError Bool := do
  let reconstructed ← self.reconstructCommitmentFromProof proof
  return reconstructed.value = proof.rootCommitment.value

end

end VerkleCommitment

mutual

def getRecursive : VerkleNode → Bytes → Nat → Call VerkleError (Option Bytes)
  | .extension stem suffixTree _, key, depth => do
    let part ← keyPart key stem depth
    if part = stem then getSlot suffixTree key (depth + stem.length) else return none
  | .branch children value _, key, depth => do
    if key.length ≤ depth then return value
    else
      let index ← byteAt key depth
      getSlot (children index) key (depth + 1)
  | .leaf value _, _, _ => return some value

def getSlot : Option VerkleNode → Bytes → Nat → Call VerkleError (Option Bytes)
  | none, _, _ => .ok none
  | some node, key, depth => getRecursive node key depth

end

def siblingNodes (children : UInt8 → Option VerkleNode) (index : UInt8) :
    List (Bytes × Commitment) :=
  allBytes.filterMap fun i =>
    if i = index then none else (children i).map fun sibling => ([i], sibling.commitment)

mutual

def collectProofNodes : VerkleNode → Bytes → Nat →
    Call VerkleError (Option Bytes × List (Bytes × Commitment))
  | .extension stem suffixTree commitment, key, depth => do
    let path ← slice key 0 depth
    let part ← keyPart key stem depth
    if part = stem then
      let (value, nodes) ← collectSlot suffixTree key (depth + stem.length)
      return (value, (path, commitment) :: nodes)
    else return (none, [(path, commitment)])
  | .branch children branchValue commitment, key, depth => do
    let path ← slice key 0 depth
    if key.length ≤ depth then return (branchValue, [(path, commitment)])
    else
      let index ← byteAt key depth
      let (value, nodes) ← collectSlot (children index) key (depth + 1)
      return (value, (path, commitment) :: (siblingNodes children index ++ nodes))
  | .leaf value commitment, key, depth => do
    let path ← slice key 0 depth
    return (some value, [(path, commitment)])

def collectSlot : Option VerkleNode → Bytes → Nat →
    Call VerkleError (Option Bytes × List (Bytes × Commitment))
  | none, _, _ => .ok (none, [])
  | some node, key, depth => collectProofNodes node key depth

end

structure VerkleTree where
  config : VerkleConfig
  root : Option VerkleNode
  commitmentEngine : VerkleCommitment
  cache : HashMap H256 Bytes

namespace VerkleTree

def new [Build] (config : VerkleConfig) : Checked VerkleTree := do
  let commitmentEngine ← VerkleCommitment.new config
  return { config, root := none, commitmentEngine, cache := ∅ }

def checkKey (self : VerkleTree) (key : Bytes) : Call VerkleError Unit :=
  if key.length ≠ self.config.keyLength then
    Call.fail (.invalidKey s!"Key length must be {self.config.keyLength}")
  else .ok ()

def evictCacheEntries (order : List H256) (cache : HashMap H256 Bytes) : HashMap H256 Bytes :=
  (order.take (cache.keys.card / 10)).foldl (fun cache key => cache.erase key) cache

def updateCache (self : VerkleTree) (order : List H256) (key value : Bytes) :
    Checked (HashMap H256 Bytes) := do
  if self.config.enableCache then
    let hash ← H256.fromSlice key
    let cache := self.cache.insert hash value
    if self.config.cacheSize < cache.keys.card then return evictCacheEntries order cache
    else return cache
  else return self.cache

section
variable [Crypto]

def insert (self : VerkleTree) (order : List H256) (key value : Bytes) :
    Call VerkleError VerkleTree := do
  self.checkKey key
  let root := self.root.getD (.newExtension (List.replicate 31 0))
  let root ← self.commitmentEngine.insertRecursive root key value 0
  let cache ← self.updateCache order key value
  return { self with root := some root, cache }

def delete (self : VerkleTree) (key : Bytes) : Call VerkleError (Bool × VerkleTree) := do
  self.checkKey key
  match self.root with
  | none => return (false, self)
  | some root =>
    let (root, deleted) ← self.commitmentEngine.deleteRecursive root key 0
    if deleted && self.config.enableCache then
      let hash ← H256.fromSlice key
      return (deleted, { self with root := some root, cache := self.cache.erase hash })
    else return (deleted, { self with root := some root })

def verifyProof (self : VerkleTree) (proof : VerkleProof) : Call VerkleError Bool :=
  self.commitmentEngine.verifyProof proof

end

def lookup (self : VerkleTree) (key : Bytes) : Call VerkleError (Option Bytes) :=
  getSlot self.root key 0

def get (self : VerkleTree) (key : Bytes) : Call VerkleError (Option Bytes) := do
  self.checkKey key
  if self.config.enableCache then
    let hash ← H256.fromSlice key
    match self.cache.lookup hash with
    | some value => return some value
    | none => self.lookup key
  else self.lookup key

def generateProof (self : VerkleTree) (key : Bytes) : Call VerkleError VerkleProof := do
  self.checkKey key
  match self.root with
  | none => Call.fail (.nodeNotFound "Root node not found")
  | some root =>
    let (value, proofNodes) ← collectProofNodes root key 0
    return { key, value, proofNodes, rootCommitment := root.commitment }

def rootCommitment (self : VerkleTree) : Option Commitment := self.root.map VerkleNode.commitment

end VerkleTree

end EthereumRust.Verkle
