import EthereumRust.Crypto
import EthereumRust.Trie.Nibbles

/-!
# Nodes (`crates/trie`: `node.rs`)

`Decoder::decode_list_header` is a parameter: `decode_raw` calls it and `crates/rlp` does not define
it. `LawfulListHeader` is what it has to do on the encoding of a list of strings. The method
`encode_list(n, f)`, which is not there either, writes what `f` writes behind one list header.

A child with an encoding of 32 bytes and more is only known to its parent by its hash.
-/

namespace EthereumRust.Trie
open Rust Rlp

mutual

inductive Node where
  | empty
  | leaf (key : Nibbles) (value : Bytes)
  | extension (key : Nibbles) (node : NodeRef)
  | branch (children : Fin 16 → Option NodeRef) (value : Option Bytes)

inductive NodeRef where
  | hash (hash : H256)
  | inline (node : Node)

end

def Node.isEmpty : Node → Bool
  | .empty => true
  | _ => false

mutual

def Node.encodeRaw : Node → Bytes
  | .empty => encodeBytes []
  | .leaf key value => encodePayload (encodeBytes (key.encodeCompact true) ++ encodeBytes value)
  | .extension key node =>
    encodePayload (encodeBytes (key.encodeCompact false) ++ encodeBytes node.bytes)
  | .branch children value =>
    encodePayload ((List.finRange 16).flatMap (fun i => encodeBytes (childBytes (children i))) ++
      encodeBytes (value.getD []))

def NodeRef.bytes : NodeRef → Bytes
  | .hash hash => hash.toList
  | .inline node => node.encodeRaw

def childBytes : Option NodeRef → Bytes
  | none => []
  | some child => child.bytes

end

section
variable [Crypto]

/-- A short encoding is its own hash, padded with zeros. -/
def Node.hash (self : Node) : H256 :=
  let encoded := self.encodeRaw
  if h : encoded.length < 32 then
    ⟨encoded ++ List.replicate (32 - encoded.length) 0, by
      rw [List.length_append, List.length_replicate]
      omega⟩
  else keccak256 encoded

def NodeRef.fromNode (node : Node) : NodeRef :=
  if node.encodeRaw.length < 32 then .inline node else .hash node.hash

end

class ListHeader where
  decodeListHeader : Read Nat

export ListHeader (decodeListHeader)

/-- On a list of strings `decode_list_header` returns their number and stops behind the header; it
refuses what is not a list. -/
class LawfulListHeader [ListHeader] : Prop where
  counts : ∀ (strings : List Bytes) (d : Decoder) (tail : Bytes),
    (strings.flatMap encodeBytes).length < 2 ^ 32 → d.data.length ≤ isizeMax →
    d.rest = encodePayload (strings.flatMap encodeBytes) ++ tail →
    decodeListHeader d = .ok strings.length
      (d.advance (header 0xc0 0xf7 (strings.flatMap encodeBytes).length).length)
  refuses : ∀ (d : Decoder) (byte : UInt8) (tail : Bytes), d.rest = byte :: tail →
    byte.toNat < 0xc0 → ∃ e d', decodeListHeader d = .err e d'

abbrev Decoding := StateT Decoder (Call TrieError)

def rlp (m : Read α) : Decoding α := Call.ofMethod .rlpError m

section
variable (decodeRaw : Bytes → Call TrieError Node)

def decodeRef (data : Bytes) : Call TrieError NodeRef :=
  if h : data.length = 32 then .ok (.hash ⟨data, h⟩)
  else do return .inline (← decodeRaw data)

def decodeChild (children : Fin 16 → Option NodeRef) (i : Fin 16) :
    Decoding (Fin 16 → Option NodeRef) := do
  let childData ← rlp decodeBytes
  if childData.isEmpty then return children
  else
    let node ← liftM (decodeRef decodeRaw childData)
    return Function.update children i (some node)

def decodePath : Decoding Node := do
  let keyData ← rlp decodeBytes
  let (key, isLeaf) ← liftM (Nibbles.decodeCompact keyData)
  if isLeaf then
    let value ← rlp decodeBytes
    return .leaf key value
  else
    let nodeData ← rlp decodeBytes
    let node ← liftM (decodeRef decodeRaw nodeData)
    return .extension key node

def decodeBranch : Decoding Node := do
  let children ← (List.finRange 16).foldlM (decodeChild decodeRaw) (fun _ => none)
  let valueData ← rlp decodeBytes
  return .branch children (if valueData.isEmpty then none else some valueData)

def decodeRawWith [ListHeader] : Decoding Node := do
  let listSize ← rlp decodeListHeader
  if listSize = 2 then decodePath decodeRaw
  else if listSize = 17 then decodeBranch decodeRaw
  else liftM (Call.fail TrieError.invalidNode : Call TrieError Node)

end

variable [ListHeader]

def decodeRawF : Nat → Bytes → Call TrieError Node
  | 0, data => if data.isEmpty then .ok .empty else .error .overflow
  | frames + 1, data =>
    if data.isEmpty then .ok .empty
    else (decodeRawWith (decodeRawF frames)).run' (.new data)

def Node.decodeRaw (data : Bytes) : Call TrieError Node := decodeRawF data.length data

end EthereumRust.Trie
