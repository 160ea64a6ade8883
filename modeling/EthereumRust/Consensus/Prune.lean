import EthereumRust.Consensus.ForkChoice

/-!
# What `prune` keeps

A run adds blocks in any order and prunes at blocks that descend from the last one it pruned at. In
every state of a run the lists of children hold stored blocks only, and every stored block but the
last one pruned at stands in the list of its parent (`Consistent`).
-/

namespace EthereumRust.Consensus

open Rust EthereumRust.Core List

namespace ForkChoice

inductive Op where
  | addBlock (block : Block) (totalDifficulty : U256)
  | prune (finalizedHash : H256)

def added (past : List Op) : List Block :=
  past.filterMap fun
    | .addBlock block _ => some block
    | .prune _ => none

def lastPruned (past : List Op) : Option H256 :=
  (past.filterMap fun
    | .addBlock _ _ => none
    | .prune finalizedHash => some finalizedHash).getLast?

def Parent [Crypto] (blocks : List Block) (child parent : H256) : Prop :=
  ∃ block ∈ blocks, block.header.hash = child ∧ block.header.parentHash = parent

structure Forest [Crypto] (blocks : List Block) : Prop where
  unique : ∀ child parent parent', Parent blocks child parent → Parent blocks child parent' →
    parent = parent'
  acyclic : ∀ hash, ¬Relation.TransGen (Parent blocks) hash hash

/-- The block is on record, and is the last one finalized or descends from it. -/
def CanPrune [Crypto] (past : List Op) (self : ForkChoice) (finalizedHash : H256) : Prop :=
  finalizedHash ∈ self.blocks ∧ ∀ last, lastPruned past = some last →
    Relation.ReflTransGen (Parent (added past)) finalizedHash last

def Step [Crypto] (past : List Op) (self : ForkChoice) : Op → ForkChoice → Prop
  | .addBlock block totalDifficulty, self' => self' = self.addBlock block totalDifficulty
  | .prune finalizedHash, self' =>
    CanPrune past self finalizedHash ∧ self.Prunes finalizedHash self'

structure Consistent [Crypto] (past : List Op) (store : ForkChoice) : Prop where
  stored : ∀ hash info, store.blocks.lookup hash = some info →
    Parent (added past) hash info.header.parentHash
  listed : ∀ parent, ∀ child ∈ store.childrenOf parent,
    child ∈ store.blocks ∧ Parent (added past) child parent
  indexed : ∀ hash info, store.blocks.lookup hash = some info → lastPruned past ≠ some hash →
    hash ∈ store.childrenOf info.header.parentHash

section
variable {td : U256}

theorem added_append_addBlock : added (past ++ [.addBlock block td]) = added past ++ [block] := by
  simp [added]

theorem added_append_prune : added (past ++ [.prune fin]) = added past := by
  simp [added]

theorem lastPruned_append_addBlock :
    lastPruned (past ++ [.addBlock block td]) = lastPruned past := by
  simp [lastPruned]

theorem lastPruned_append_prune : lastPruned (past ++ [.prune fin]) = some fin := by
  simp [lastPruned]

end

section
variable [Crypto] {past : List Op} {s : ForkChoice} {hash : H256} {blocks : List Block}

theorem Parent.mono (h : ∀ block ∈ blocks, block ∈ blocks')
    (H : Parent blocks child par) : Parent blocks' child par := by
  obtain ⟨block, hmem, hch, hpar⟩ := H
  exact ⟨block, h block hmem, hch, hpar⟩

theorem Forest.of_subset (H : Forest blocks') (h : ∀ block ∈ blocks, block ∈ blocks') :
    Forest blocks where
  unique child par par' hp hp' := H.unique child par par' (hp.mono h) (hp'.mono h)
  acyclic hash hcyc := H.acyclic hash (hcyc.lift id fun _ _ hp => hp.mono h)

theorem forest_of_rank (rank : H256 → Nat)
    (huni : ∀ block ∈ blocks, ∀ block' ∈ blocks, block.header.hash = block'.header.hash →
      block.header.parentHash = block'.header.parentHash)
    (hrank : ∀ block ∈ blocks, rank block.header.parentHash < rank block.header.hash) :
    Forest blocks where
  unique child par par' := by
    rintro ⟨block, hmem, hhash, rfl⟩ ⟨block', hmem', hhash', rfl⟩
    exact huni block hmem block' hmem' (hhash.trans hhash'.symm)
  acyclic := by
    apply Ancestry.acyclic_of_rank rank
    rintro child par ⟨block, hmem, rfl, rfl⟩
    exact hrank block hmem

theorem consistent_new : Consistent [] new where
  stored _ _ h := by cases h
  listed _ _ h := by cases h
  indexed _ _ h := by cases h

theorem childrenOf_addBlock :
    (s.addBlock block td).childrenOf par =
      if par = block.header.parentHash then s.childrenOf par ++ [block.header.hash]
      else s.childrenOf par := by
  rw [childrenOf, addBlock, HashMap.getD_insert]
  split_ifs with h
  · rw [h]
  · rfl

theorem Consistent.addBlock (H : Consistent past s) :
    Consistent (past ++ [.addBlock block td])
      (s.addBlock block td) where
  stored hash info hinfo := by
    rw [added_append_addBlock]
    rw [ForkChoice.addBlock, HashMap.lookup_insert_ite] at hinfo
    split_ifs at hinfo with hhash
    · cases hinfo
      exact ⟨block, mem_append_right _ mem_cons_self, hhash.symm, rfl⟩
    · exact (H.stored hash info hinfo).mono fun _ => mem_append_left _
  listed par child hch := by
    rw [added_append_addBlock]
    have hsto : ∀ hash, hash ∈ (s.addBlock block td).blocks ↔
        hash = block.header.hash ∨ hash ∈ s.blocks := fun hash => Finmap.mem_insert
    have hold : child ∈ s.childrenOf par →
        child ∈ (s.addBlock block td).blocks ∧
          Parent (added past ++ [block]) child par := by
      intro hch
      obtain ⟨hmem, hpar⟩ := H.listed par child hch
      exact ⟨(hsto child).mpr (.inr hmem), hpar.mono fun _ => mem_append_left _⟩
    rw [childrenOf_addBlock] at hch
    split_ifs at hch with hpar
    · rcases mem_append.mp hch with hch | hch
      · exact hold hch
      · have hhash := mem_singleton.mp hch
        exact ⟨(hsto child).mpr (.inl hhash),
          block, mem_append_right _ mem_cons_self, hhash.symm, hpar.symm⟩
    · exact hold hch
  indexed hash info hinfo hlast := by
    rw [lastPruned_append_addBlock] at hlast
    rw [childrenOf_addBlock]
    rw [ForkChoice.addBlock, HashMap.lookup_insert_ite] at hinfo
    split_ifs at hinfo with hhash
    · cases hinfo
      rw [if_pos rfl, hhash]
      exact mem_append_right _ mem_cons_self
    · have hmem := H.indexed hash info hinfo hlast
      split_ifs
      · exact mem_append_left _ hmem
      · exact hmem

theorem Consistent.mem_of_below (H : Consistent past s) (hf : fin ∈ s.blocks)
    (h : s.Below fin hash) : hash ∈ s.blocks := by
  cases h with
  | refl => exact hf
  | tail _ hedge => exact (H.listed _ _ hedge).1

theorem Consistent.parent_of_stored (H : Consistent past s) (hfor : Forest (added past))
    (hinfo : s.blocks.lookup hash = some info)
    (hedge : hash ∈ s.childrenOf par) : info.header.parentHash = par :=
  hfor.unique hash _ _ (H.stored hash info hinfo) (H.listed par hash hedge).2

theorem Consistent.exists_leaves (H : Consistent past s) (hfor : Forest (added past)) (fin : H256) :
    ∃ toKeep, Loop.Leaves (Worklist.turn s.childrenOf) ([fin], ∅) toKeep ∧
      ∀ hash, hash ∈ toKeep ↔ s.Below fin hash := by
  apply Worklist.exists_leaves
  intro hash hcyc
  apply hfor.acyclic hash
  rw [← Relation.transGen_swap]
  exact hcyc.lift id fun par child hedge => (H.listed par child hedge).2

theorem Consistent.prune (H : Consistent past s) (hfor : Forest (added past))
    (hkeep : ∀ hash, hash ∈ toKeep ↔ s.Below fin hash) :
    Consistent (past ++ [.prune fin]) (s.retainAll toKeep) where
  stored hash info hinfo := by
    rw [added_append_prune]
    exact H.stored hash info (lookup_retainAll.mp hinfo).1
  listed par child hch := by
    rw [added_append_prune]
    rw [childrenOf_retainAll] at hch
    split_ifs at hch with hparent
    · obtain ⟨hmem, hpar⟩ := H.listed par child hch
      obtain ⟨info, hinfo⟩ := mem_blocks.mp hmem
      have hchi : child ∈ toKeep := (hkeep child).mpr (((hkeep par).mp hparent).tail hch)
      exact ⟨mem_blocks.mpr ⟨info, lookup_retainAll.mpr ⟨hinfo, hchi⟩⟩, hpar⟩
    · cases hch
  indexed hash info hinfo hlast := by
    rw [lastPruned_append_prune] at hlast
    obtain ⟨hinfo, hmem⟩ := lookup_retainAll.mp hinfo
    cases (hkeep hash).mp hmem with
    | refl => exact absurd rfl hlast
    | tail hbel hedge =>
      rw [H.parent_of_stored hfor hinfo hedge, childrenOf_retainAll, if_pos ((hkeep _).mpr hbel)]
      exact hedge

theorem consistent_of_run (h : History.Run Step new past s) (hfor : Forest (added past)) :
    Consistent past s := by
  refine h.induct (fun past s => Forest (added past) → Consistent past s)
    (fun _ => consistent_new) ?_ hfor
  intro past s op s' _ ih hstep hfor
  cases op with
  | addBlock block td =>
    rw [added_append_addBlock] at hfor
    rw [show s' = _ from hstep]
    exact (ih (hfor.of_subset fun _ => mem_append_left _)).addBlock
  | prune fin =>
    rw [added_append_prune] at hfor
    obtain ⟨-, hpru⟩ := hstep
    obtain ⟨toKeep, hlvs, rfl⟩ := prunes_iff.mp hpru
    obtain ⟨toKeep', hlvs', hkeep⟩ := (ih hfor).exists_leaves hfor fin
    obtain rfl := hlvs.unique hlvs'
    exact (ih hfor).prune hfor hkeep

theorem Consistent.link_of_below (H : Consistent past s) (hfor : Forest (added past))
    (hf : fin ∈ s.blocks) (h : s.Below fin hash) : Relation.ReflTransGen s.Link hash fin := by
  induction h with
  | refl => exact .refl
  | tail hbel hedge ih =>
    obtain ⟨info, hinfo⟩ := mem_blocks.mp (H.listed _ _ hedge).1
    refine .head ⟨info, hinfo, ?_, H.mem_of_below hf hbel⟩ ih
    exact H.parent_of_stored hfor hinfo hedge

theorem Consistent.parent_of_link (H : Consistent past s)
    (h : s.Link hash par) : Parent (added past) hash par := by
  obtain ⟨info, hinfo, rfl, -⟩ := h
  exact H.stored hash info hinfo

theorem Consistent.below_of_link (H : Consistent past s) (hfor : Forest (added past))
    (hcan : CanPrune past s fin)
    (h : Relation.ReflTransGen s.Link hash fin) : s.Below fin hash := by
  induction h using Relation.ReflTransGen.head_induction_on with
  | refl => exact .refl
  | head hlink hcha ih =>
    obtain ⟨info, hinfo, rfl, -⟩ := id hlink
    refine ih.tail (H.indexed _ info hinfo fun hlast => ?_)
    -- the last block pruned at would descend from one that descends from it
    have hdown := hcan.2 _ hlast
    have hup : Relation.ReflTransGen (Parent (added past)) info.header.parentHash fin :=
      hcha.lift id fun _ _ => H.parent_of_link
    exact hfor.acyclic _ (.head' (H.parent_of_link hlink) (hup.trans hdown))

/-- In every state of a run `prune` returns. It keeps exactly the stored blocks that are the
finalized one or lead to it through stored parents, and a second call changes nothing. -/
theorem prune_exact (h : History.Run Step new past s) (hfor : Forest (added past))
    (hcan : CanPrune past s fin) :
    ∃ s', (∀ res, s.Prunes fin res ↔ res = s') ∧
      (∀ hash info, s'.blocks.lookup hash = some info ↔
        s.blocks.lookup hash = some info ∧ Relation.ReflTransGen s.Link hash fin) ∧
      ∀ res, s'.Prunes fin res ↔ res = s' := by
  have H := consistent_of_run h hfor
  obtain ⟨toKeep, hlvs, hkeep⟩ := H.exists_leaves hfor fin
  have H' := H.prune hfor hkeep
  obtain ⟨toKeep', hlvs', hkeep'⟩ := H'.exists_leaves (added_append_prune.symm ▸ hfor) fin
  have hsub : toKeep ⊆ toKeep' := fun hash hmem =>
    (hkeep' hash).mpr (below_retainAll hkeep ((hkeep hash).mp hmem))
  refine ⟨s.retainAll toKeep, fun res => ?_, fun hash info => ?_, fun res => ?_⟩
  · rw [prunes_iff_of_leaves hlvs]
  · rw [lookup_retainAll, hkeep]
    refine and_congr_right fun _ => ⟨H.link_of_below hfor hcan.1, H.below_of_link hfor hcan⟩
  · rw [prunes_iff_of_leaves hlvs', retainAll_retainAll hsub]

end

section
open Sized

def sampleBlock (parentHash : H256) (extraData : Bytes) : Block :=
  .new { Header.new with parentHash, extraData }

def sampleRoot : Block := sampleBlock .zero []

def sampleChild : Block := sampleBlock sampleRoot.header.hash [0, 0]

def samplePast : List Op := [.addBlock sampleChild 0, .addBlock sampleRoot 0]

def sampleStore : ForkChoice := (new.addBlock sampleChild 0).addBlock sampleRoot 0

theorem prune_exact_sample :
    ∃ s', (∀ res, sampleStore.Prunes sampleRoot.header.hash res ↔ res = s') ∧
      (∀ hash info, s'.blocks.lookup hash = some info ↔
        sampleStore.blocks.lookup hash = some info ∧
          Relation.ReflTransGen sampleStore.Link hash sampleRoot.header.hash) ∧
      ∀ res, s'.Prunes sampleRoot.header.hash res ↔ res = s' := by
  have hrun : History.Run Step new samplePast sampleStore := .next (.next .start rfl) rfl
  have hfor : Forest (added samplePast) :=
    forest_of_rank (fun hash => (U256.ofHash hash).toNat) (by decide +kernel) (by decide +kernel)
  have hmem : sampleRoot.header.hash ∈ sampleStore.blocks := Finmap.mem_insert.mpr (.inl rfl)
  exact prune_exact hrun hfor ⟨hmem, fun last hlast => by cases hlast⟩

end

end ForkChoice

end EthereumRust.Consensus
