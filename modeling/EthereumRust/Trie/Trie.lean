import EthereumRust.Trie.Node

/-!
# The Patricia trie (`crates/trie`: `trie.rs`)

A node is worked on together with the rest of the key below it: `key` stands for
`key.slice_from(key_index)`. The recursive functions take the number of stack frames left. How a
hash is resolved is an argument `load` of every operation; in the source it is `load_node`.

The database is the `MemoryDatabase` of `crates/storage`: a map whose operations do not fail.
-/

namespace EthereumRust.Trie
open Rust

section
variable (load : H256 → Call TrieError Node)

def resolveNodeRef : NodeRef → Call TrieError Node
  | .inline node => .ok node
  | .hash hash => load hash

def resolveSlot : Option NodeRef → Call TrieError Node
  | none => .ok .empty
  | some childRef => resolveNodeRef load childRef

def getAtNode : Nat → Node → Nibbles → Call TrieError (Option Bytes)
  | 0, _, _ => .error .overflow
  | _ + 1, .empty, _ => .ok none
  | _ + 1, .leaf leafKey value, key => .ok (if key = leafKey then some value else none)
  | frames + 1, .extension extKey childRef, key =>
    let commonLen := extKey.commonPrefixLen key
    if commonLen = extKey.length then do
      let child ← resolveNodeRef load childRef
      getAtNode frames child (key.drop commonLen)
    else .ok none
  | _ + 1, .branch _ value, [] => .ok value
  | frames + 1, .branch children _, nibble :: key =>
    match children nibble with
    | none => .ok none
    | some childRef => do
      let child ← resolveNodeRef load childRef
      getAtNode frames child key

end

section
variable [Crypto]

abbrev BranchParts := (Fin 16 → Option NodeRef) × Option Bytes

namespace BranchParts

def new : BranchParts := (fun _ => none, none)

def node (self : BranchParts) : Node := .branch self.1 self.2

def putValue (self : BranchParts) (remainder : Nibbles) (value : Bytes) : BranchParts :=
  match remainder with
  | [] => (self.1, some value)
  | nibble :: rest =>
    (Function.update self.1 nibble (some (.fromNode (.leaf rest value))), self.2)

def putExtension (self : BranchParts) (remainder : Nibbles) (childRef : NodeRef) : BranchParts :=
  match remainder with
  | [] => self
  | [nibble] => (Function.update self.1 nibble (some childRef), self.2)
  | nibble :: rest =>
    (Function.update self.1 nibble (some (.fromNode (.extension rest childRef))), self.2)

def behind (self : BranchParts) (commonPrefix : Nibbles) : Node :=
  if commonPrefix.length > 0 then .extension commonPrefix (.fromNode self.node) else self.node

end BranchParts

variable (load : H256 → Call TrieError Node)

/-- The source splits a leaf with `common_len == 0` in an arm of its own, with the same steps. -/
def insertAtNode : Nat → Node → Nibbles → Bytes → Call TrieError Node
  | 0, _, _, _ => .error .overflow
  | _ + 1, .empty, key, value => .ok (.leaf key value)
  | _ + 1, .leaf leafKey leafValue, key, value =>
    let commonLen := leafKey.commonPrefixLen key
    if commonLen = leafKey.length ∧ commonLen = key.length then .ok (.leaf leafKey value)
    else
      let branch := BranchParts.new.putValue (leafKey.drop commonLen) leafValue
      let branch := branch.putValue (key.drop commonLen) value
      .ok (branch.behind (leafKey.take commonLen))
  | frames + 1, .extension extKey childRef, key, value =>
    let commonLen := extKey.commonPrefixLen key
    if commonLen = extKey.length then do
      let child ← resolveNodeRef load childRef
      let newChild ← insertAtNode frames child (key.drop commonLen) value
      return .extension extKey (.fromNode newChild)
    else
      let branch := BranchParts.new.putExtension (extKey.drop commonLen) childRef
      let branch := branch.putValue (key.drop commonLen) value
      .ok (branch.behind (extKey.take commonLen))
  | _ + 1, .branch children _, [], value => .ok (.branch children (some value))
  | frames + 1, .branch children branchValue, nibble :: key, value => do
    let child ← resolveSlot load (children nibble)
    let newChild ← insertAtNode frames child key value
    return .branch (Function.update children nibble (some (.fromNode newChild))) branchValue

def nonEmptyChildren (children : Fin 16 → Option NodeRef) : List (Nibble × NodeRef) :=
  (List.finRange 16).filterMap fun i => (children i).map fun childRef => (i, childRef)

def tryCompactBranch (children : Fin 16 → Option NodeRef) (value : Option Bytes) :
    Call TrieError Node :=
  match nonEmptyChildren children, value with
  | [], none => .ok .empty
  | [], some v => .ok (.leaf [] v)
  | [(nibble, childRef)], none => do
    match ← resolveNodeRef load childRef with
    | .leaf childKey value => .ok (.leaf ([nibble] ++ childKey) value)
    | .extension childKey node => .ok (.extension ([nibble] ++ childKey) node)
    | _ => .ok (.extension [nibble] childRef)
  | _, _ => .ok (.branch children value)

def collapseExtension (extKey : Nibbles) : Node → Node
  | .empty => .empty
  | .leaf childKey value => .leaf (extKey ++ childKey) value
  | .extension childKey node => .extension (extKey ++ childKey) node
  | newChild => .extension extKey (.fromNode newChild)

def deleteAtNode : Nat → Node → Nibbles → Call TrieError (Node × Bool)
  | 0, _, _ => .error .overflow
  | _ + 1, .empty, _ => .ok (.empty, false)
  | _ + 1, .leaf leafKey value, key =>
    .ok (if key = leafKey then (.empty, true) else (.leaf leafKey value, false))
  | frames + 1, .extension extKey childRef, key =>
    let commonLen := extKey.commonPrefixLen key
    if commonLen = extKey.length then do
      let child ← resolveNodeRef load childRef
      let (newChild, deleted) ← deleteAtNode frames child (key.drop commonLen)
      return if deleted then (collapseExtension extKey newChild, true)
        else (.extension extKey childRef, false)
    else .ok (.extension extKey childRef, false)
  | _ + 1, .branch children value, [] =>
    if value.isSome then do return (← tryCompactBranch load children none, true)
    else .ok (.branch children value, false)
  | frames + 1, .branch children value, nibble :: key =>
    match children nibble with
    | none => .ok (.branch children value, false)
    | some childRef => do
      let child ← resolveNodeRef load childRef
      let (newChild, deleted) ← deleteAtNode frames child key
      if deleted then
        let slot := if newChild.isEmpty then none else some (NodeRef.fromNode newChild)
        return (← tryCompactBranch load (Function.update children nibble slot) value, true)
      else return (.branch children value, false)

end

/-- `BTreeMap<Vec<u8>, Vec<u8>>`; the trie does not iterate over it. -/
abbrev Database := HashMap Bytes Bytes

def nodeKey (hash : H256) : Bytes := 0x74 :: hash.toList

def loadNode [ListHeader] (db : Database) (hash : H256) : Call TrieError Node :=
  match db.lookup (nodeKey hash) with
  | none => Call.fail .keyNotFound
  | some data => Node.decodeRaw data

section
variable [Crypto]

def Node.commitEntry (self : Node) : List (Bytes × Bytes) :=
  if 32 ≤ self.encodeRaw.length then [(nodeKey self.hash, self.encodeRaw)] else []

mutual

def Node.commitNode : Node → List (Bytes × Bytes)
  | .empty => Node.empty.commitEntry
  | .leaf key value => (Node.leaf key value).commitEntry
  | .extension key childRef => (Node.extension key childRef).commitEntry ++ childRef.commitInline
  | .branch children value =>
    (Node.branch children value).commitEntry ++
      (List.finRange 16).flatMap fun i => commitChild (children i)

def NodeRef.commitInline : NodeRef → List (Bytes × Bytes)
  | .hash _ => []
  | .inline child => child.commitNode

def commitChild : Option NodeRef → List (Bytes × Bytes)
  | none => []
  | some childRef => childRef.commitInline

end

end

def Database.writeBatch (db : Database) (batch : List (Bytes × Bytes)) : Database :=
  batch.foldl (fun db entry => db.insert entry.1 entry.2) db

structure PatriciaTrie where
  db : Database
  root : Node
  cachedRootHash : Option H256

namespace PatriciaTrie

def new (db : Database) : PatriciaTrie where
  db := db
  root := .empty
  cachedRootHash := none

def newWithRoot [ListHeader] (db : Database) (rootHash : H256) : Call TrieError PatriciaTrie := do
  let root ← loadNode db rootHash
  return { db, root, cachedRootHash := some rootHash }

section
variable [Crypto]

def rootHash (self : PatriciaTrie) : H256 × PatriciaTrie :=
  let hash := self.cachedRootHash.getD self.root.hash
  (hash, { self with cachedRootHash := some hash })

def commit (self : PatriciaTrie) : H256 × PatriciaTrie :=
  { self with db := self.db.writeBatch self.root.commitNode }.rootHash

variable (load : Database → H256 → Call TrieError Node)

def get (self : PatriciaTrie) (frames : Nat) (key : Bytes) : Call TrieError (Option Bytes) :=
  getAtNode (load self.db) frames self.root (Nibbles.fromBytes key)

def insert (self : PatriciaTrie) (frames : Nat) (key value : Bytes) :
    Call TrieError PatriciaTrie := do
  let root ← insertAtNode (load self.db) frames self.root (Nibbles.fromBytes key) value
  return { self with root, cachedRootHash := none }

def delete (self : PatriciaTrie) (frames : Nat) (key : Bytes) :
    Call TrieError (Bool × PatriciaTrie) := do
  let (root, deleted) ← deleteAtNode (load self.db) frames self.root (Nibbles.fromBytes key)
  return (deleted, { self with root, cachedRootHash := none })

end

end PatriciaTrie

end EthereumRust.Trie
