import EthereumRust.Ssf.ValidatorSet
import EthereumRust.Lib.Blocks
import EthereumRust.Lib.Call
import Mathlib.Data.ZMod.Defs

/-!
# Aggregation in a tree (`crates/ssf/src/aggregator.rs`)

The signatures of a block are cut into chunks of equal size, and these into chunks again, until a
chunk is small enough or the tree high enough; the signatures of such a leaf are added up. An inner
node should add up its children, but it keeps the first of them.

Signatures are the elements of a commutative group. How high the tree may get is computed in
floating point and is a parameter.
-/

namespace EthereumRust.Ssf

open Rust Rust.Method List

class SignatureCodec (G : Type) where
  fromBytes : Bytes → Except String G
  compress : G → Bytes

/-- A compressed signature reads back. -/
class LawfulSignatureCodec (G : Type) [SignatureCodec G] : Prop where
  fromBytes_compress : ∀ g : G, SignatureCodec.fromBytes (SignatureCodec.compress g) = .ok g

/-- `(n.log2() / branching_factor.log2()).ceil()`, on floating-point numbers. -/
class TreeHeight where
  height : Nat → Nat → Nat

structure ValidatorSignature where
  validatorIndex : UInt64
  signature : Bytes
  stake : U256

structure AggregationNode (G : Type) where
  signatures : List G
  aggregated : Option G
  children : List (AggregationNode G)
  weight : U256

structure AggregationTree (G : Type) where
  root : AggregationNode G
  height : Nat
  totalSignatures : Nat

structure SignatureAggregator (G : Type) where
  aggregationTrees : HashMap H256 (AggregationTree G)

def ValidatorSignature.toSignature {G : Type} [SignatureCodec G] (self : ValidatorSignature) :
    Call SSFError G :=
  match SignatureCodec.fromBytes self.signature with
  | .ok signature => .ok signature
  | .error e => Call.fail (.signatureError ("Invalid signature: " ++ e))

mutual

def AggregationNode.leafSignatures {G : Type} : AggregationNode G → List G
  | ⟨signatures, _, [], _⟩ => signatures
  | ⟨_, _, child :: children, _⟩ => child.leafSignatures ++ leafSignaturesAll children

def leafSignaturesAll {G : Type} : List (AggregationNode G) → List G
  | [] => []
  | node :: nodes => node.leafSignatures ++ leafSignaturesAll nodes

end

namespace SignatureAggregator

section
variable {G : Type} [AddCommGroup G] [SignatureCodec G]

def aggregateDirect (G : Type) [AddCommGroup G] [SignatureCodec G] :
    List ValidatorSignature → Call SSFError Bytes
  | [] => .error (.panic .slice)
  | first :: rest => do
    let first : G ← first.toSignature
    let aggregate ← rest.foldlM (fun aggregate sig => do
      let signature ← sig.toSignature
      return aggregate + signature) first
    return SignatureCodec.compress aggregate

/-- The signatures whose bytes are points. -/
def parsed (signatures : List ValidatorSignature) : List G :=
  signatures.filterMap fun sig => (sig.toSignature : Call SSFError G).toOption

def buildLeaf (signatures : List ValidatorSignature) : Checked (AggregationNode G) := do
  let sigs := parsed signatures
  let aggregated := match sigs with
    | [] => none
    | first :: rest => some (rest.foldl (· + ·) first)
  let weight ← U256.sum (signatures.map (·.stake))
  return { signatures := sigs, aggregated, children := [], weight }

def addChild (build : List ValidatorSignature → Checked (AggregationNode G))
    (acc : List (AggregationNode G) × U256) (chunk : List ValidatorSignature) :
    Checked (List (AggregationNode G) × U256) := do
  let child ← build chunk
  let totalWeight ← acc.2.add child.weight
  return (acc.1 ++ [child], totalWeight)

/-- `build_tree_node`, by the levels that are left up to `max_height`. It never returns `Err`. The
sum for the size of the chunks is below twice the number of signatures and does not overflow. -/
def buildTreeNode (branchingFactor : Nat) :
    Nat → List ValidatorSignature → Checked (AggregationNode G)
  | 0, signatures =>
    if signatures.isEmpty then
      .ok { signatures := [], aggregated := none, children := [], weight := 0 }
    else buildLeaf signatures
  | levels + 1, signatures =>
    if signatures.isEmpty then
      .ok { signatures := [], aggregated := none, children := [], weight := 0 }
    else if signatures.length ≤ branchingFactor then buildLeaf signatures
    else do
      let chunkSize ← divUsize (signatures.length + branchingFactor - 1) branchingFactor
      let (children, totalWeight) ← (Blocks.chunks chunkSize signatures).foldlM
        (addChild (buildTreeNode branchingFactor levels)) ([], 0)
      -- the first child with a signature; the others are not added to it
      let aggregated := children.findSome? (·.aggregated)
      return { signatures := [], aggregated, children, weight := totalWeight }

def buildAggregationTree [TreeHeight] (signatures : List ValidatorSignature)
    (branchingFactor : Nat) : Checked (AggregationTree G) := do
  let height := TreeHeight.height signatures.length branchingFactor
  let root ← buildTreeNode branchingFactor height signatures
  return { root, height, totalSignatures := signatures.length }

def aggregateFromTree (blockHash : H256) : Method (SignatureAggregator G) SSFError Bytes := do
  match ← read (·.aggregationTrees.lookup blockHash) with
  | none => fail (.aggregationError "Tree not found")
  | some tree =>
    match tree.root.aggregated with
    | some aggregate => return SignatureCodec.compress aggregate
    | none => fail (.aggregationError "No aggregated signature")

/-- A tree is added and, if there are too many, one is removed: the first in the order of the map,
`firstKey`. -/
def storeTree (self : SignatureAggregator G) (blockHash : H256) (tree : AggregationTree G)
    (firstKey : H256) : SignatureAggregator G :=
  let trees := self.aggregationTrees.insert blockHash tree
  if 100 < trees.keys.card then { aggregationTrees := trees.erase firstKey }
  else { aggregationTrees := trees }

def aggregateTreeBased [TreeHeight] (signatures : List ValidatorSignature) (blockHash : H256)
    (branchingFactor : Nat) (firstKey : H256) : Method (SignatureAggregator G) SSFError Bytes := do
  let tree ← buildAggregationTree signatures branchingFactor
  update (·.storeTree blockHash tree firstKey)
  aggregateFromTree blockHash

def leafSize (branchingFactor : Nat) : Nat → Nat → Nat
  | 0, n => n
  | levels + 1, n =>
    if n ≤ branchingFactor then n
    else leafSize branchingFactor levels ((n + branchingFactor - 1) / branchingFactor)

def totalStake (signatures : List ValidatorSignature) : Nat :=
  (signatures.map (·.stake.toNat)).sum

/-- All bytes are points. -/
def Parseable (G : Type) [SignatureCodec G] (signatures : List ValidatorSignature) : Prop :=
  ∀ sig ∈ signatures, ∃ g : G, sig.toSignature = .ok g

structure Holds (signatures : List ValidatorSignature) (size : Nat) (node : AggregationNode G) :
    Prop where
  aggregated : signatures ≠ [] → node.aggregated = some (parsed (signatures.take size)).sum
  weight : node.weight.toNat = totalStake signatures

structure Meets (built : Checked (AggregationNode G)) (signatures : List ValidatorSignature)
    (size : Nat) : Prop where
  ok : ∀ node, built = .ok node → Holds signatures size node
  overflow : ∀ p, built = .error p → 2 ^ 256 ≤ totalStake signatures

omit [SignatureCodec G] in
theorem sum_cons_eq_foldl (rest : List G) : (first :: rest).sum = rest.foldl (· + ·) first := by
  rw [sum_eq_foldl, foldl_cons, zero_add]

theorem totalStake_append :
    totalStake (sigs ++ sigs') = totalStake sigs + totalStake sigs' := by
  rw [totalStake, map_append, sum_append]
  rfl

section
variable {sigs : List ValidatorSignature}

omit [AddCommGroup G] in
theorem Parseable.mono (h : Parseable G sigs)
    (hpart : ∀ sig ∈ part, sig ∈ sigs) : Parseable G part :=
  fun sig hsig => h sig (hpart sig hsig)

omit [AddCommGroup G] in
theorem parsed_cons {sig : ValidatorSignature} {g : G} (h : sig.toSignature = .ok g) :
    parsed (sig :: sigs) = g :: parsed sigs := by
  rw [parsed, filterMap_cons, h]
  rfl

omit [AddCommGroup G] in
theorem parsed_append :
    (parsed (sigs ++ sigs') : List G) = parsed sigs ++ parsed sigs' :=
  filterMap_append

theorem buildLeaf_spec (hprs : Parseable G sigs) :
    Meets (buildLeaf sigs : Checked (AggregationNode G)) sigs sigs.length where
  ok node h := by
    obtain ⟨weight, hsum, h⟩ := h.of_bind
    cases h
    rw [U256.sum_eq_ok, map_map] at hsum
    refine ⟨fun hne => ?_, hsum⟩
    obtain ⟨sig, rest, rfl⟩ := exists_cons_of_ne_nil hne
    obtain ⟨g, hg⟩ := hprs sig mem_cons_self
    rw [take_length, parsed_cons hg, sum_cons_eq_foldl]
  overflow p h := by
    obtain hsum | ⟨weight, -, h⟩ := Except.bind_eq_error.mp h
    · have hle := U256.le_of_sum_eq_error hsum
      rwa [map_map] at hle
    · cases h

section
variable {build : List ValidatorSignature → Checked (AggregationNode G)}
  {size : List ValidatorSignature → Nat} {chunks : List (List ValidatorSignature)}

omit [AddCommGroup G] [SignatureCodec G] in
theorem foldlM_addChild_built (h : chunks.foldlM (addChild build) acc = .ok acc') :
    ∃ built, acc'.1 = acc.1 ++ built ∧
      List.Forall₂ (fun chunk node => build chunk = .ok node) chunks built := by
  induction chunks generalizing acc with
  | nil =>
    cases h
    exact ⟨[], (append_nil _).symm, .nil⟩
  | cons chunk chunks ih =>
    obtain ⟨next, hnext, h⟩ := h.of_bind
    obtain ⟨child, hch, hnext⟩ := hnext.of_bind
    obtain ⟨totalWeight, -, hnext⟩ := hnext.of_bind
    cases hnext
    obtain ⟨built, hbui, hchs⟩ := ih h
    refine ⟨child :: built, ?_, .cons hch hchs⟩
    rw [hbui, append_assoc]
    rfl

theorem foldlM_addChild_weight (hbld : ∀ chunk ∈ chunks, Meets (build chunk) chunk (size chunk))
    {acc acc' : List (AggregationNode G) × U256}
    (h : chunks.foldlM (addChild build) acc = .ok acc') :
    acc'.2.toNat = acc.2.toNat + totalStake chunks.flatten := by
  induction chunks generalizing acc with
  | nil =>
    cases h
    rfl
  | cons chunk chunks ih =>
    rw [forall_mem_cons] at hbld
    obtain ⟨next, hnext, h⟩ := h.of_bind
    obtain ⟨child, hch, hnext⟩ := hnext.of_bind
    obtain ⟨totalWeight, hadd, hnext⟩ := hnext.of_bind
    cases hnext
    rw [U256.add_eq_ok, (hbld.1.ok child hch).weight] at hadd
    rw [ih hbld.2 h, flatten_cons, totalStake_append]
    change totalWeight.toNat + _ = _
    omega

theorem foldlM_addChild_overflow (hbld : ∀ chunk ∈ chunks, Meets (build chunk) chunk (size chunk))
    {p : Panic} (h : chunks.foldlM (addChild build) acc = .error p) :
    2 ^ 256 ≤ acc.2.toNat + totalStake chunks.flatten := by
  induction chunks generalizing acc with
  | nil => cases h
  | cons chunk chunks ih =>
    rw [forall_mem_cons] at hbld
    rw [foldlM_cons] at h
    rw [flatten_cons, totalStake_append]
    obtain hnext | ⟨next, hnext, h⟩ := Except.bind_eq_error.mp h
    · obtain hch | ⟨child, hch, hnext⟩ := Except.bind_eq_error.mp hnext
      · have hle := hbld.1.overflow p hch
        omega
      · obtain hadd | ⟨totalWeight, -, hnext⟩ := Except.bind_eq_error.mp hnext
        · have hle := U256.le_of_add_eq_error hadd
          rw [(hbld.1.ok child hch).weight] at hle
          omega
        · cases hnext
    · obtain ⟨child, hch, hnext⟩ := hnext.of_bind
      obtain ⟨totalWeight, hadd, hnext⟩ := hnext.of_bind
      cases hnext
      rw [U256.add_eq_ok, (hbld.1.ok child hch).weight] at hadd
      have hle := ih hbld.2 h
      change 2 ^ 256 ≤ totalWeight.toNat + _ at hle
      omega

end

theorem meets_empty :
    Meets (.ok { signatures := [], aggregated := none, children := [], weight := 0 } :
      Checked (AggregationNode G)) [] size where
  ok node h := by
    cases h
    exact ⟨fun hne => absurd rfl hne, rfl⟩
  overflow p h := by cases h

theorem chunkSize_le (hfac : 0 < bf) (n : Nat) : (n + bf - 1) / bf ≤ n := by
  rw [Nat.div_le_iff_le_mul_add_pred hfac]
  have hle : n ≤ bf * n := Nat.le_mul_of_pos_left n hfac
  omega

theorem leafSize_le (hfac : 0 < bf) (n : Nat) : leafSize bf levels n ≤ n := by
  induction levels generalizing n with
  | zero => exact le_rfl
  | succ levels ih =>
    rw [leafSize]
    split_ifs with hsm
    · exact le_rfl
    · exact (ih _).trans (chunkSize_le hfac n)

theorem findSome?_aggregated {build : List ValidatorSignature → Checked (AggregationNode G)}
    (hne : first ≠ []) (hfst : Meets (build first) first size)
    (h : List.Forall₂ (fun chunk node => build chunk = .ok node) (first :: rest) built) :
    built.findSome? (·.aggregated) = some (parsed (first.take size)).sum := by
  cases h with
  | cons hok _ => rw [findSome?_cons, (hfst.ok _ hok).aggregated hne]

/-- The aggregate of a node is that of its first leaf, its weight that of all its signatures. -/
theorem buildTreeNode_spec (hfac : 0 < bf) (levels : Nat) (hprs : Parseable G signatures) :
    Meets (buildTreeNode bf levels signatures : Checked (AggregationNode G)) signatures
      (leafSize bf levels signatures.length) := by
  induction levels generalizing signatures with
  | zero =>
    rw [buildTreeNode]
    split_ifs with hemp
    · rw [isEmpty_iff.mp hemp]
      exact meets_empty
    · exact buildLeaf_spec hprs
  | succ levels ih =>
    rw [buildTreeNode]
    split_ifs with hemp hsm
    · rw [isEmpty_iff.mp hemp]
      exact meets_empty
    · rw [leafSize, if_pos hsm]
      exact buildLeaf_spec hprs
    · rw [leafSize, if_neg hsm]
      have hdiv : divUsize (signatures.length + bf - 1) bf =
          .ok ((signatures.length + bf - 1) / bf) :=
        if_neg (ne_of_gt hfac)
      have hle := chunkSize_le hfac signatures.length
      have hpos : 0 < (signatures.length + bf - 1) / bf := Nat.div_pos (by omega) hfac
      generalize (signatures.length + bf - 1) / bf = chunkSize at *
      have hflat := Blocks.flatten_chunks hpos signatures
      have hbld : ∀ chunk ∈ Blocks.chunks chunkSize signatures,
          Meets (buildTreeNode bf levels chunk : Checked (AggregationNode G)) chunk
            (leafSize bf levels chunk.length) := by
        intro chunk hchk
        refine ih (hprs.mono fun sig hsig => ?_)
        rw [← hflat]
        exact mem_flatten_of_mem hchk hsig
      constructor
      · intro node h
        obtain ⟨_, hsize, h⟩ := h.of_bind
        rw [hdiv] at hsize
        cases hsize
        obtain ⟨acc, hacc, h⟩ := h.of_bind
        cases h
        obtain ⟨built, hbui, hchs⟩ := foldlM_addChild_built hacc
        have hwt := foldlM_addChild_weight hbld hacc
        refine ⟨fun hne => ?_, ?_⟩
        · obtain ⟨rest, hchu⟩ := Blocks.chunks_eq_cons hpos hne
          have hfst : (signatures.take chunkSize).length = chunkSize := by
            rw [length_take, Nat.min_eq_left hle]
          have hfirst_ne : signatures.take chunkSize ≠ [] := ne_nil_of_length_pos (by rwa [hfst])
          rw [hchu] at hchs hbld
          rw [hbui, nil_append,
            findSome?_aggregated hfirst_ne (hbld _ mem_cons_self) hchs, hfst,
            take_take, Nat.min_eq_left (leafSize_le hfac chunkSize)]
        · rw [hflat] at hwt
          exact hwt.trans (zero_add _)
      · intro p h
        obtain hsize | ⟨_, hsize, h⟩ := Except.bind_eq_error.mp h
        · rw [hdiv] at hsize
          cases hsize
        · rw [hdiv] at hsize
          cases hsize
          obtain hacc | ⟨_, -, h⟩ := Except.bind_eq_error.mp h
          · have hover := foldlM_addChild_overflow hbld hacc
            rw [hflat] at hover
            change 2 ^ 256 ≤ 0 + _ at hover
            omega
          · cases h

omit [AddCommGroup G] in
theorem leafSignaturesAll_eq {build : List ValidatorSignature → Checked (AggregationNode G)}
    (hbld : ∀ {chunk node}, build chunk = .ok node → node.leafSignatures = parsed chunk)
    (h : List.Forall₂ (fun chunk node => build chunk = .ok node) chunks built) :
    leafSignaturesAll built = parsed chunks.flatten := by
  induction h with
  | nil => rfl
  | cons hnode _ ih =>
    rw [leafSignaturesAll, hbld hnode, ih, flatten_cons, parsed_append]

omit [AddCommGroup G] [SignatureCodec G] in
theorem leafSignatures_of_children {node : AggregationNode G} (h : node.children ≠ []) :
    node.leafSignatures = leafSignaturesAll node.children := by
  obtain ⟨sigs, aggregated, cs, weight⟩ := node
  cases cs with
  | nil => exact absurd rfl h
  | cons child cs => rw [AggregationNode.leafSignatures, leafSignaturesAll]

omit [AddCommGroup G] in
theorem map_ok_parsed (h : Parseable G sigs) :
    ((parsed sigs : List G).map .ok : List (Call SSFError G)) =
      sigs.map (·.toSignature) := by
  induction sigs with
  | nil => rfl
  | cons sig sigs ih =>
    obtain ⟨⟨g, hg⟩, hrest⟩ := forall_mem_cons.mp h
    rw [parsed_cons hg, map_cons, map_cons, ih hrest, hg]

theorem leafSignatures_buildLeaf {node : AggregationNode G} (h : buildLeaf sigs = .ok node) :
    node.leafSignatures = parsed sigs := by
  obtain ⟨weight, -, h⟩ := h.of_bind
  cases h
  rfl

theorem leafSignatures_buildTreeNode {node : AggregationNode G}
    (hfac : 0 < bf) (h : buildTreeNode bf levels sigs = .ok node) :
    node.leafSignatures = parsed sigs := by
  induction levels generalizing sigs node with
  | zero =>
    rw [buildTreeNode] at h
    split_ifs at h with hemp
    · cases h
      rw [isEmpty_iff.mp hemp]
      rfl
    · exact leafSignatures_buildLeaf h
  | succ levels ih =>
    rw [buildTreeNode] at h
    split_ifs at h with hemp hsm
    · cases h
      rw [isEmpty_iff.mp hemp]
      rfl
    · exact leafSignatures_buildLeaf h
    · obtain ⟨chunkSize, hsize, h⟩ := h.of_bind
      obtain ⟨acc, hacc, h⟩ := h.of_bind
      cases h
      rw [divUsize, if_neg (ne_of_gt hfac)] at hsize
      cases hsize
      have hpos : 0 < (sigs.length + bf - 1) / bf := Nat.div_pos (by omega) hfac
      obtain ⟨built, hbui, hchs⟩ := foldlM_addChild_built hacc
      rw [nil_append] at hbui
      subst hbui
      have hne : acc.1 ≠ [] := by
        obtain ⟨rest, hchu⟩ := Blocks.chunks_eq_cons hpos (mt isEmpty_iff.mpr hemp)
        intro hnil
        rw [hchu, hnil] at hchs
        cases hchs
      refine (leafSignatures_of_children hne).trans ?_
      rw [leafSignaturesAll_eq ih hchs, Blocks.flatten_chunks hpos]

theorem foldlM_toSignature (hprs : Parseable G sigs) (agg : G) :
    sigs.foldlM (fun agg sig => do
      let signature ← sig.toSignature
      return agg + signature : G → ValidatorSignature → Call SSFError G) agg =
      .ok (agg + (parsed sigs).sum) := by
  induction sigs generalizing agg with
  | nil => exact congrArg _ (add_zero agg).symm
  | cons sig sigs ih =>
    obtain ⟨g, hg⟩ := hprs sig mem_cons_self
    have hrest : Parseable G sigs := hprs.mono fun _ => mem_cons_of_mem _
    rw [foldlM_cons, hg, parsed_cons hg, sum_cons, ← add_assoc]
    exact ih hrest (agg + g)

theorem aggregateDirect_eq (hprs : Parseable G sigs) (hne : sigs ≠ []) :
    aggregateDirect G sigs =
      .ok (SignatureCodec.compress (parsed sigs : List G).sum) := by
  obtain ⟨sig, rest, rfl⟩ := exists_cons_of_ne_nil hne
  obtain ⟨g, hg⟩ := hprs sig mem_cons_self
  have hrest : Parseable G rest := hprs.mono fun _ => mem_cons_of_mem _
  rw [aggregateDirect, hg, Call.ok_bind, foldlM_toSignature hrest, parsed_cons hg]
  rfl

/-- Storing the tree drops it again: the cache is full and its first key is this block. -/
def Evicts (self : SignatureAggregator G) (blockHash firstKey : H256) : Prop :=
  100 < (insert blockHash self.aggregationTrees.keys).card ∧ firstKey = blockHash

variable {self : SignatureAggregator G}

omit [AddCommGroup G] [SignatureCodec G] in
theorem lookup_storeTree_of_evicts (h : self.Evicts bh firstKey) :
    (self.storeTree bh tree firstKey).aggregationTrees.lookup bh = none := by
  obtain ⟨hfull, rfl⟩ := h
  rw [storeTree, HashMap.keys_insert, if_pos hfull]
  exact Finmap.lookup_erase _ _

omit [AddCommGroup G] [SignatureCodec G] in
theorem lookup_storeTree_of_not_evicts (h : ¬self.Evicts bh firstKey) :
    (self.storeTree bh tree firstKey).aggregationTrees.lookup bh = some tree := by
  rw [storeTree, HashMap.keys_insert]
  split_ifs with hfull
  · have hne : bh ≠ firstKey := fun heq => h ⟨hfull, heq.symm⟩
    exact (Finmap.lookup_erase_ne hne).trans (Finmap.lookup_insert _)
  · exact Finmap.lookup_insert _

omit [AddCommGroup G] in
theorem aggregateFromTree_of_none (h : self.aggregationTrees.lookup blockHash = none) :
    aggregateFromTree blockHash self = .err (.aggregationError "Tree not found") self := by
  rw [aggregateFromTree, bind_read, h]
  rfl

omit [AddCommGroup G] in
theorem aggregateFromTree_of_some (h : self.aggregationTrees.lookup bh = some tree)
    (hroot : tree.root.aggregated = some g) :
    aggregateFromTree bh self = .ok (SignatureCodec.compress g) self := by
  rw [aggregateFromTree, bind_read, h]
  change (match tree.root.aggregated with | some _ => _ | none => _ : Method _ _ _) self = _
  rw [hroot]
  rfl

variable [TreeHeight]

/-- How many signatures the first leaf of the tree covers. -/
def firstLeaf (branchingFactor n : Nat) : Nat :=
  leafSize branchingFactor (TreeHeight.height n branchingFactor) n

theorem buildAggregationTree_eq_ok (hfac : 0 < bf) (hprs : Parseable G sigs)
    {tree : AggregationTree G} (h : buildAggregationTree sigs bf = .ok tree) :
    Holds sigs (firstLeaf bf sigs.length) tree.root := by
  obtain ⟨root, hroot, h⟩ := h.of_bind
  cases h
  exact (buildTreeNode_spec hfac _ hprs).ok root hroot

theorem buildAggregationTree_overflow (hfac : 0 < bf) (hprs : Parseable G sigs)
    (h : (buildAggregationTree sigs bf : Checked (AggregationTree G)) = .error p) :
    2 ^ 256 ≤ totalStake sigs := by
  obtain hroot | ⟨root, -, h⟩ := Except.bind_eq_error.mp h
  · exact (buildTreeNode_spec hfac _ hprs).overflow p hroot
  · cases h

theorem aggregateTreeBased_eq_ok_iff (hfac : 0 < bf)
    (hprs : Parseable G sigs) (hne : sigs ≠ []) :
    (∃ self', aggregateTreeBased sigs blockHash bf firstKey self =
        .ok aggregate self') ↔
      totalStake sigs < 2 ^ 256 ∧ ¬self.Evicts blockHash firstKey ∧
        aggregate = SignatureCodec.compress (parsed
          (sigs.take (firstLeaf bf sigs.length)) : List G).sum := by
  rw [aggregateTreeBased]
  cases hbld : (buildAggregationTree sigs bf : Checked (AggregationTree G)) with
  | error p =>
    have hover := buildAggregationTree_overflow hfac hprs hbld
    refine iff_of_false ?_ fun h => absurd h.1 (not_lt.mpr hover)
    rintro ⟨self', h⟩
    cases h
  | ok tree =>
    have hhol := buildAggregationTree_eq_ok hfac hprs hbld
    have hfits : totalStake sigs < 2 ^ 256 := hhol.weight ▸ tree.root.weight.isLt
    have hread : (liftM (Except.ok tree : Checked (AggregationTree G)) >>= fun tree => do
        update (·.storeTree blockHash tree firstKey)
        aggregateFromTree blockHash : Method (SignatureAggregator G) SSFError Bytes) self =
        aggregateFromTree blockHash (self.storeTree blockHash tree firstKey) := rfl
    rw [hread]
    by_cases hevi : self.Evicts blockHash firstKey
    · rw [aggregateFromTree_of_none (lookup_storeTree_of_evicts hevi)]
      refine iff_of_false ?_ fun h => h.2.1 hevi
      rintro ⟨self', h⟩
      cases h
    · rw [aggregateFromTree_of_some (lookup_storeTree_of_not_evicts hevi)
        (hhol.aggregated hne), and_iff_right hfits, and_iff_right hevi]
      constructor
      · rintro ⟨self', h⟩
        cases h
        rfl
      · rintro rfl
        exact ⟨_, rfl⟩

end

end

/-- The tree of a list of signatures weighs as much as their stakes, and its leaves hold the list,
whatever the branching factor, the level and the maximum height are. -/
theorem buildTreeNode_complete {G : Type} [AddCommGroup G] [SignatureCodec G]
    (sigs : List ValidatorSignature) (bf level maxHeight : Nat)
    (hprs : Parseable G sigs) (hfac : 1 ≤ bf) (hfits : totalStake sigs < 2 ^ 256) :
    ∃ node : AggregationNode G,
      buildTreeNode bf (maxHeight - level) sigs = .ok node ∧
        node.weight.toNat = totalStake sigs ∧
        (node.leafSignatures.map .ok : List (Call SSFError G)) =
          sigs.map (·.toSignature) := by
  have hspec := buildTreeNode_spec (G := G) hfac (maxHeight - level) hprs
  cases hbld : buildTreeNode (G := G) bf (maxHeight - level) sigs with
  | error p => exact absurd hfits (not_lt.mpr (hspec.overflow p hbld))
  | ok node =>
    refine ⟨node, rfl, (hspec.ok node hbld).weight, ?_⟩
    rw [leafSignatures_buildTreeNode hfac hbld, map_ok_parsed hprs]

/-- The tree gives the result of `aggregate_direct` exactly if the stakes do not overflow, the tree
is not dropped before it is read, and the signatures behind its first leaf add up to zero. -/
theorem aggregateTreeBased_eq_iff {G : Type} [AddCommGroup G] [SignatureCodec G]
    [LawfulSignatureCodec G] [TreeHeight] (self : SignatureAggregator G)
    (sigs : List ValidatorSignature) (blockHash firstKey : H256) (bf : Nat)
    (hne : sigs ≠ []) (hprs : Parseable G sigs) (hfac : 2 ≤ bf) :
    (∃ aggregate self', aggregateDirect G sigs = .ok aggregate ∧
        aggregateTreeBased sigs blockHash bf firstKey self =
          .ok aggregate self') ↔
      totalStake sigs < 2 ^ 256 ∧ ¬self.Evicts blockHash firstKey ∧
        (parsed (sigs.drop (firstLeaf bf sigs.length)) : List G).sum =
          0 := by
  have hpos : 0 < bf := by omega
  have hdir := aggregateDirect_eq (G := G) hprs hne
  have hspl : (parsed sigs : List G).sum =
      (parsed (sigs.take (firstLeaf bf sigs.length))).sum +
        (parsed (sigs.drop (firstLeaf bf sigs.length))).sum := by
    rw [← sum_append, ← parsed_append, take_append_drop]
  have hcom {g g' : G} (h : SignatureCodec.compress g = SignatureCodec.compress g') : g = g' := by
    have hg := LawfulSignatureCodec.fromBytes_compress g
    rw [h, LawfulSignatureCodec.fromBytes_compress] at hg
    exact (Except.ok.inj hg).symm
  constructor
  · rintro ⟨aggregate, self', hok, htree⟩
    obtain ⟨hfits, hevi, hagg⟩ := (aggregateTreeBased_eq_ok_iff hpos hprs hne).mp ⟨self', htree⟩
    rw [hdir] at hok
    cases hok
    refine ⟨hfits, hevi, ?_⟩
    have hsum := hcom hagg
    rw [hspl] at hsum
    exact left_eq_add.mp hsum.symm
  · rintro ⟨hfits, hevi, hzero⟩
    rw [hzero, add_zero] at hspl
    obtain ⟨self', htree⟩ := (aggregateTreeBased_eq_ok_iff hpos hprs hne).mpr ⟨hfits, hevi, rfl⟩
    exact ⟨_, self', hspl ▸ hdir, htree⟩

namespace Sample

scoped instance : SignatureCodec (ZMod 256) where
  fromBytes bytes := .ok (bytes.headD 0).toFin
  compress g := [.ofFin g]

scoped instance : LawfulSignatureCodec (ZMod 256) := ⟨fun _ => rfl⟩

scoped instance : TreeHeight := ⟨fun n branchingFactor => Nat.clog branchingFactor n⟩

def signature (index : UInt64) (byte : UInt8) : ValidatorSignature := ⟨index, [byte], 32⟩

def aggregator : SignatureAggregator (ZMod 256) := ⟨∅⟩

theorem parseable : Parseable (ZMod 256) sigs :=
  fun sig _ => ⟨(sig.signature.headD 0).toFin, rfl⟩

theorem buildTreeNode_complete_three :
    ∃ node : AggregationNode (ZMod 256),
      buildTreeNode 2 (1 - 0) [signature 0 3, signature 1 4, signature 2 5] = .ok node ∧
        node.weight.toNat = 96 ∧
        (node.leafSignatures.map .ok : List (Call SSFError (ZMod 256))) = [.ok 3, .ok 4, .ok 5] :=
  buildTreeNode_complete [signature 0 3, signature 1 4, signature 2 5] 2 0 1 parseable
    (by decide) (by decide)

theorem aggregateTreeBased_two : ∃ aggregate self',
    aggregateDirect (ZMod 256) [signature 0 3, signature 1 4] = .ok aggregate ∧
      aggregateTreeBased [signature 0 3, signature 1 4] H256.zero 2 H256.zero aggregator =
        .ok aggregate self' :=
  (aggregateTreeBased_eq_iff aggregator [signature 0 3, signature 1 4] H256.zero H256.zero 2
    (by simp) parseable le_rfl).mpr ⟨by decide, by simp [Evicts, aggregator], by decide⟩

/-- An inner node has the aggregate of its first child only. -/
theorem aggregateTreeBased_three :
    aggregateDirect (ZMod 256) [signature 0 3, signature 1 4, signature 2 5] = .ok [12] ∧
      ∃ self', aggregateTreeBased [signature 0 3, signature 1 4, signature 2 5] H256.zero 2
        H256.zero aggregator = .ok [7] self' :=
  ⟨rfl, _, rfl⟩

end Sample

end SignatureAggregator

end EthereumRust.Ssf
