import EthereumRust.Trie.Proof
import EthereumRust.Trie.References

/-!
# Walks along a key

`get`, `verify` and `generate_proof` walk along a key from a root. `Node.find` is the part of the
walk inside the root: it ends at a value, at the absence of one, or at a hash.
-/

namespace EthereumRust.Trie
open Rust Nibbles

inductive Place where
  | absent
  | leaf (value : Bytes)
  | branch (value : Option Bytes)
  | reference (hash : H256) (rest : Nibbles)

def Place.value : Place → Option Bytes
  | .absent => none
  | .leaf value => some value
  | .branch value => value
  | .reference _ _ => none

def Place.Inside : Place → Prop
  | .reference _ _ => False
  | _ => True

mutual

/-- Where the walk of `get_at_node` for a key ends, as far as inline nodes go. -/
def Node.find : Node → Nibbles → Place
  | .empty, _ => .absent
  | .leaf leafKey value, key => if key = leafKey then .leaf value else .absent
  | .extension extKey childRef, key =>
    if extKey.commonPrefixLen key = extKey.length then childRef.find (key.drop extKey.length)
    else .absent
  | .branch _ value, [] => .branch value
  | .branch children _, nibble :: key => findChild (children nibble) key

def NodeRef.find : NodeRef → Nibbles → Place
  | .hash hash, rest => .reference hash rest
  | .inline node, key => node.find key

def findChild : Option NodeRef → Nibbles → Place
  | none, _ => .absent
  | some childRef, key => childRef.find key

end

theorem Node.find_extension :
    (Node.extension extKey childRef).find key =
      if extKey <+: key then childRef.find (key.drop extKey.length) else .absent := by
  simp only [Node.find, commonPrefixLen_eq_length]

inductive Node.Steps : Node → Nibbles → Node → Nibbles → Prop where
  | extension : extKey <+: key →
      Node.Steps (.extension extKey (.inline m)) key m (key.drop extKey.length)
  | branch : children nibble = some (.inline m) →
      Node.Steps (.branch children value) (nibble :: key) m key

inductive Node.Stops : Node → Nibbles → Place → Prop where
  | empty : Node.Stops .empty key .absent
  | leaf : Node.Stops (.leaf key value) key (.leaf value)
  | otherLeaf : key ≠ leafKey → Node.Stops (.leaf leafKey value) key .absent
  | otherPath : ¬extKey <+: key → Node.Stops (.extension extKey childRef) key .absent
  | extension : extKey <+: key →
      Node.Stops (.extension extKey (.hash childHash)) key
        (.reference childHash (key.drop extKey.length))
  | value : Node.Stops (.branch children value) [] (.branch value)
  | noChild : children nibble = none → Node.Stops (.branch children value) (nibble :: key) .absent
  | branch : children nibble = some (.hash childHash) →
      Node.Stops (.branch children value) (nibble :: key) (.reference childHash key)

theorem Node.Steps.inlinedIn {n m : Node} (h : n.Steps key m key') : m.InlinedIn n := by
  cases h with
  | extension => exact rfl
  | branch hch => exact ⟨_, hch⟩

theorem Node.Steps.find {n m : Node} (h : n.Steps key m key') : n.find key = m.find key' := by
  cases h with
  | extension hk => rw [Node.find_extension, if_pos hk, NodeRef.find]
  | branch hch => rw [Node.find, hch, findChild, NodeRef.find]

theorem Node.Stops.find {n : Node} (h : n.Stops key place) : n.find key = place := by
  cases h with
  | empty => rw [Node.find]
  | leaf => rw [Node.find, if_pos rfl]
  | otherLeaf hk => rw [Node.find, if_neg hk]
  | otherPath hk => rw [Node.find_extension, if_neg hk]
  | extension hk => rw [Node.find_extension, if_pos hk, NodeRef.find]
  | value => rw [Node.find]
  | noChild hch => rw [Node.find, hch, findChild]
  | branch hch => rw [Node.find, hch, findChild, NodeRef.find]

theorem Node.stops_or_steps (n : Node) :
    (∃ place, n.Stops key place) ∨ ∃ m key', n.Steps key m key' := by
  cases n with
  | empty => exact .inl ⟨_, .empty⟩
  | leaf leafKey value =>
    by_cases hk : key = leafKey
    · subst hk
      exact .inl ⟨_, .leaf⟩
    · exact .inl ⟨_, .otherLeaf hk⟩
  | extension extKey childRef =>
    by_cases hk : extKey <+: key
    · cases childRef with
      | hash hash => exact .inl ⟨_, .extension hk⟩
      | inline m => exact .inr ⟨m, _, .extension hk⟩
    · exact .inl ⟨_, .otherPath hk⟩
  | branch cs value =>
    cases key with
    | nil => exact .inl ⟨_, .value⟩
    | cons nibble key =>
      cases hch : cs nibble with
      | none => exact .inl ⟨_, .noChild hch⟩
      | some childRef =>
        cases childRef with
        | hash hash => exact .inl ⟨_, .branch hch⟩
        | inline m => exact .inr ⟨m, key, .branch hch⟩

theorem Node.walk_induction {motive : Node → Nibbles → Prop}
    (stop : ∀ n key place, n.Stops key place → motive n key)
    (step : ∀ n key m key', n.Steps key m key' → motive m key' → motive n key)
    (n : Node) (key : Nibbles) : motive n key := by
  induction n using Node.inline_induction generalizing key with
  | step n ih =>
    rcases n.stops_or_steps with ⟨place, h⟩ | ⟨m, key', h⟩
    · exact stop n key place h
    · exact step n key m key' h (ih m h.inlinedIn key')

def Node.Walkable (n : Node) : Prop := n.All fun m => ∀ key node, m = .extension key node → key ≠ []

theorem Node.Steps.length_lt {n m : Node} (h : n.Steps key m key')
    (hn : n.Walkable) : key'.length < key.length := by
  cases h with
  | extension hk => exact length_drop_lt (hn.here _ _ rfl) hk (Nat.lt_succ_self _)
  | branch hch => exact Nat.lt_succ_self _

theorem getAtNode_steps (h : n.Steps key m key') :
    getAtNode load (frames + 1) n key = getAtNode load frames m key' := by
  cases h with
  | extension hk =>
    rw [getAtNode, commonPrefixLen_eq_length.mpr hk, if_pos rfl]
    rfl
  | branch hch =>
    rw [getAtNode, hch]
    rfl

def Place.lookup (load : H256 → Call TrieError Node) (frames : Nat) :
    Place → Call TrieError (Option Bytes)
  | .reference hash rest => do getAtNode load frames (← load hash) rest
  | place => .ok place.value

theorem getAtNode_stops (h : n.Stops key place) (frames : Nat) :
    getAtNode load (frames + 1) n key = place.lookup load frames := by
  cases h with
  | empty => rfl
  | leaf =>
    rw [getAtNode, if_pos rfl]
    rfl
  | otherLeaf hk =>
    rw [getAtNode, if_neg hk]
    rfl
  | otherPath hk =>
    rw [getAtNode, if_neg (mt commonPrefixLen_eq_length.mp hk)]
    rfl
  | extension hk =>
    rw [getAtNode, commonPrefixLen_eq_length.mpr hk, if_pos rfl]
    rfl
  | value => rfl
  | noChild hch =>
    rw [getAtNode, hch]
    rfl
  | branch hch =>
    rw [getAtNode, hch]
    rfl

theorem getAtNode_eq_lookup (hn : n.Walkable) (hfrs : key.length < frames) :
    ∃ left, getAtNode load frames n key = (n.find key).lookup load left := by
  induction n, key using Node.walk_induction generalizing frames with
  | stop n key place h =>
    obtain ⟨left, rfl⟩ := exists_frame hfrs
    exact ⟨left, by rw [getAtNode_stops h, h.find]⟩
  | step n key m key' h ih =>
    obtain ⟨left, rfl⟩ := exists_frame hfrs
    have hlt := h.length_lt hn
    rw [getAtNode_steps h, h.find]
    exact ih (hn.inside h.inlinedIn) (by omega)

theorem getAtNode_of_inside (hn : n.Walkable) (h : (n.find key).Inside)
    (hfrs : key.length < frames) : getAtNode load frames n key = .ok (n.find key).value := by
  obtain ⟨left, heq⟩ := getAtNode_eq_lookup hn hfrs
  rw [heq]
  cases hpl : n.find key with
  | reference hash rest =>
    rw [hpl] at h
    exact h.elim
  | _ => rfl

theorem getAtNode_of_reference (hn : n.Walkable) {hash : H256}
    (h : n.find key = .reference hash rest) (hload : load hash = .error e)
    (hfrs : key.length < frames) : getAtNode load frames n key = .error e := by
  obtain ⟨left, heq⟩ := getAtNode_eq_lookup hn hfrs
  rw [heq, h, Place.lookup, hload, Call.error_bind]

def Place.reread : Place → Place
  | .branch value => .branch (value.filter fun v => !v.isEmpty)
  | place => place

theorem Place.Inside.reread {place : Place} (h : place.Inside) : place.reread.Inside := by
  cases place with
  | reference hash rest => exact h
  | _ => trivial

section
variable {n : Node}

theorem Node.Steps.reread (h : n.Steps key m key')
    (hpath : n.path.trim = n.path) : n.reread.Steps key m.reread key' := by
  cases h with
  | @extension extKey _ _ hk =>
    rw [Node.reread, show trim extKey = extKey from hpath]
    exact .extension hk
  | branch hch =>
    exact .branch (by rw [hch, rereadChild, NodeRef.reread])

theorem Node.Stops.reread {place : Place} (h : n.Stops key place) (hpath : n.path.trim = n.path) :
    n.reread.Stops key place.reread := by
  cases h with
  | empty =>
    exact .empty
  | leaf =>
    rw [Node.reread, show key.trim = key from hpath]
    exact .leaf
  | @otherLeaf _ leafKey _ hk =>
    rw [Node.reread, show leafKey.trim = leafKey from hpath]
    exact .otherLeaf hk
  | @otherPath extKey _ _ hk =>
    rw [Node.reread, show trim extKey = extKey from hpath]
    exact .otherPath hk
  | @extension extKey _ _ hk =>
    rw [Node.reread, show trim extKey = extKey from hpath]
    exact .extension hk
  | value =>
    exact .value
  | noChild hch =>
    exact .noChild (by rw [hch, rereadChild])
  | branch hch =>
    exact .branch (by rw [hch, rereadChild, NodeRef.reread])

theorem Node.find_reread (h : n.Trimmed) : n.reread.find key = (n.find key).reread := by
  induction n, key using Node.walk_induction with
  | stop n key place hstp => rw [(hstp.reread h.here).find, hstp.find]
  | step n key m key' hstps ih =>
    rw [(hstps.reread h.here).find, hstps.find, ih (h.inside hstps.inlinedIn)]

theorem NodeRef.reread_eq_inline {r : NodeRef} (h : r.reread = .inline m) :
    ∃ m', r = .inline m' ∧ m = m'.reread := by
  cases r with
  | hash hash =>
    cases h
  | inline m' =>
    exact ⟨m', rfl, (NodeRef.inline.inj h).symm⟩

theorem rereadChild_eq_inline
    (h : rereadChild c = some (.inline m)) : ∃ m', c = some (.inline m') ∧ m = m'.reread := by
  cases c with
  | none =>
    cases h
  | some r =>
    obtain ⟨m', rfl, hm⟩ := NodeRef.reread_eq_inline (Option.some.inj h)
    exact ⟨m', rfl, hm⟩

theorem Node.InlinedIn.of_reread (h : m.InlinedIn n.reread) :
    ∃ m' : Node, m'.InlinedIn n ∧ m = m'.reread := by
  cases n with
  | empty =>
    exact h.elim
  | leaf leafKey value =>
    exact h.elim
  | extension extKey childRef =>
    exact NodeRef.reread_eq_inline h
  | branch cs value =>
    obtain ⟨i, hi⟩ := h
    obtain ⟨m', hm', hm⟩ := rereadChild_eq_inline hi
    exact ⟨m', ⟨i, hm'⟩, hm⟩

theorem Node.All.reread (hP : ∀ m : Node, P m → P' m.reread) (h : n.All P) : n.reread.All P' := by
  induction n using Node.inline_induction with
  | step n ih =>
    refine .intro (hP n h.here) fun m hm => ?_
    obtain ⟨m', hm', rfl⟩ := hm.of_reread
    exact ih m' hm' (h.inside hm')

theorem Node.Walkable.reread (h : n.Walkable) : n.reread.Walkable := by
  refine Node.All.reread (fun m hm extKey childRef heq => ?_) h
  cases m with
  | extension key node =>
    obtain ⟨rfl, -⟩ := Node.extension.inj heq
    exact trim_ne_nil (hm key node rfl)
  | _ =>
    cases heq

theorem walkable_toNode [Crypto] (hc : t.Canonical) : (toNode t).Walkable := by
  refine all_toNode (fun {t} hc extKey childRef heq => ?_) id Radix.Tree.Canonical.child hc
  cases t with
  | ext k c =>
    obtain ⟨rfl, -⟩ := Node.extension.inj heq
    exact hc.1
  | _ => cases heq

end

section
variable [Crypto] (h : Represents trie model)
include h

theorem Represents.tidy : trie.root.Tidy := by
  rw [h.root]
  exact tidy_toNode model.canonical

theorem Represents.walkable : trie.root.Walkable := by
  rw [h.root]
  exact walkable_toNode model.canonical

theorem Represents.rootHash_eq : trie.rootHash.1 = trie.root.hash := by rw [h.rootHash, h.root]

end

end EthereumRust.Trie
