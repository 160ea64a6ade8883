import EthereumRust.Core.Block
import EthereumRust.Lib.History
import EthereumRust.Lib.Worklist

/-!
# The block tree of the fork choice (`crates/consensus`: `fork_choice.rs`)

Blocks are stored under their hash, and a second map lists for every hash the blocks that name it as
their parent, also if there is no block with that hash. `prune` collects what can be reached from
the finalized block through these lists and drops everything else from both maps.

The lists are not complete: `prune` drops the list that holds the finalized block itself.
-/

namespace EthereumRust.Consensus
open Rust EthereumRust.Core

inductive ForkChoiceRule where
  | longestChain
  | ghost
  | lmdGhost
  | casperFfg
  deriving DecidableEq, Repr

structure BlockInfo where
  header : Header
  totalDifficulty : U256
  weight : UInt64
  justified : Bool
  finalized : Bool
  deriving DecidableEq

structure ForkChoice.Attestation where
  validator : Address
  targetBlock : H256
  sourceEpoch : UInt64
  targetEpoch : UInt64
  deriving DecidableEq

structure ForkChoice where
  rule : ForkChoiceRule
  blocks : HashMap H256 BlockInfo
  children : HashMap H256 (List H256)
  attestations : HashMap H256 (List ForkChoice.Attestation)

namespace ForkChoice

def new : ForkChoice where
  rule := .longestChain
  blocks := ∅
  children := ∅
  attestations := ∅

def childrenOf (self : ForkChoice) (hash : H256) : List H256 :=
  (self.children.lookup hash).getD []

def addBlock [Crypto] (block : Block) (totalDifficulty : U256) (self : ForkChoice) : ForkChoice :=
  let hash := block.header.hash
  let parent := block.header.parentHash
  let info : BlockInfo :=
    { header := block.header, totalDifficulty, weight := 1, justified := false, finalized := false }
  { self with
    blocks := self.blocks.insert hash info
    children := self.children.insert parent (self.childrenOf parent ++ [hash]) }

def retainAll (self : ForkChoice) (toKeep : Finset H256) : ForkChoice :=
  { self with
    blocks := self.blocks.retain fun hash _ => hash ∈ toKeep
    children := self.children.retain fun hash _ => hash ∈ toKeep
    attestations := self.attestations.retain fun hash _ => hash ∈ toKeep }

/-- `prune`, for at most `fuel` turns of its loop. The loop does not look at what it has kept
already, and goes round a cycle of the lists forever. -/
def prune (fuel : Nat) (finalizedHash : H256) (self : ForkChoice) : Option ForkChoice :=
  (Loop.exec (Worklist.turn self.childrenOf) fuel ([finalizedHash], ∅)).map self.retainAll

/-- `prune` ends, with `self'`. -/
def Prunes (self : ForkChoice) (finalizedHash : H256) (self' : ForkChoice) : Prop :=
  ∃ fuel, self.prune fuel finalizedHash = some self'

abbrev Below (self : ForkChoice) : H256 → H256 → Prop :=
  Relation.ReflTransGen (Worklist.Edge self.childrenOf)

/-- A block on record whose parent is on record too. -/
def Link (self : ForkChoice) (hash parent : H256) : Prop :=
  ∃ info, self.blocks.lookup hash = some info ∧ info.header.parentHash = parent ∧
    parent ∈ self.blocks

section
variable {s : ForkChoice} {hash : H256}

theorem lookup_retainAll : (s.retainAll toKeep).blocks.lookup hash = some info ↔
      s.blocks.lookup hash = some info ∧ hash ∈ toKeep := by
  rw [retainAll, HashMap.lookup_retain, Option.filter_eq_some_iff, decide_eq_true_eq]

theorem childrenOf_retainAll :
    (s.retainAll toKeep).childrenOf hash = if hash ∈ toKeep then s.childrenOf hash else [] := by
  rw [childrenOf, retainAll, HashMap.lookup_retain, childrenOf]
  cases s.children.lookup hash with
  | none => simp
  | some list =>
    split_ifs with h
    · simp [Option.filter, h]
    · simp [Option.filter, h]

theorem retainAll_retainAll (h : toKeep ⊆ toKeep') :
    (s.retainAll toKeep).retainAll toKeep' = s.retainAll toKeep := by
  have hret {V : Type} (m : HashMap H256 V) : (m.retain fun hash _ => hash ∈ toKeep).retain
      (fun hash _ => hash ∈ toKeep') = m.retain fun hash _ => hash ∈ toKeep := by
    apply HashMap.retain_eq_self
    intro hash v hget
    rw [HashMap.lookup_retain, Option.filter_eq_some_iff, decide_eq_true_eq] at hget
    exact decide_eq_true (h hget.2)
  simp only [retainAll, hret]

theorem below_retainAll (hkeep : ∀ hash, hash ∈ toKeep ↔ s.Below fin hash)
    (h : s.Below fin hash) : (s.retainAll toKeep).Below fin hash := by
  induction h with
  | refl => exact .refl
  | tail hbel hedge ih =>
    refine ih.tail ?_
    rw [Worklist.Edge, childrenOf_retainAll, if_pos ((hkeep _).mpr hbel)]
    exact hedge

theorem mem_blocks : hash ∈ s.blocks ↔ ∃ info, s.blocks.lookup hash = some info := Finmap.mem_iff

theorem prunes_iff : s.Prunes fin s' ↔
    ∃ toKeep, Loop.Leaves (Worklist.turn s.childrenOf) ([fin], ∅) toKeep ∧
      s' = s.retainAll toKeep := by
  constructor
  · rintro ⟨fuel, h⟩
    obtain ⟨toKeep, hexec, rfl⟩ := Option.map_eq_some_iff.mp h
    exact ⟨toKeep, Loop.leaves_iff_exec.mpr ⟨fuel, hexec⟩, rfl⟩
  · rintro ⟨toKeep, hlvs, rfl⟩
    obtain ⟨fuel, hexec⟩ := Loop.leaves_iff_exec.mp hlvs
    exact ⟨fuel, Option.map_eq_some_iff.mpr ⟨toKeep, hexec, rfl⟩⟩

theorem prunes_iff_of_leaves (h : Loop.Leaves (Worklist.turn s.childrenOf) ([fin], ∅) toKeep) :
    s.Prunes fin s' ↔ s' = s.retainAll toKeep := by
  rw [prunes_iff]
  constructor
  · rintro ⟨toKeep', hlvs, rfl⟩
    rw [h.unique hlvs]
  · rintro rfl
    exact ⟨toKeep, h, rfl⟩

end

end ForkChoice

end EthereumRust.Consensus
