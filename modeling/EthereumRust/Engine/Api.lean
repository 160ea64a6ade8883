import EthereumRust.Engine.ForkChoice

/-!
# Imports and updates of the engine API (`crates/engine/src/api.rs`)

An import adds its block to the fork choice and then marks it as validated. An update looks at its
three hashes one by one before it sets them. The steps of other calls may come between.
-/

namespace EthereumRust.Engine
open Rust Rust.Method ForkChoiceStore List Finmap

/-- What an import reads of a block. -/
structure PayloadBlock where
  hash : H256
  parentHash : H256
  number : UInt64
  difficulty : U256

namespace EngineApiServer

/-- `verdict` is what the consensus engine answers and `stored` what the storage does. -/
def validateAndImportPayload (block : PayloadBlock) (verdict stored : Except String Unit) :
    Method ForkChoiceStore EngineError PayloadStatusV1 :=
  match verdict, stored with
  | .ok (), .ok () => do
    addBlock block.hash block.parentHash block.number block.difficulty
    validateBlock block.hash
    return { status := .valid, latestValidHash := some block.hash, validationError := none }
  | .ok (), .error e => fail (.internal s!"Failed to store block: {e}")
  | .error e, _ =>
    return { status := .invalid, latestValidHash := none, validationError := some e }

/-- The fork choice, the blocks of imports that are under way and that are complete, and the hashes
that updates have found valid. -/
structure Progress where
  store : ForkChoiceStore
  importing : List H256
  imported : List H256
  seen : List H256

def start : Progress := ⟨ForkChoiceStore.new, [], [], []⟩

inductive Step : Progress → Progress → Prop where
  | add (block : PayloadBlock) : Step p { p with
      store := p.store.withBlock block.hash block.parentHash block.number block.difficulty
      importing := block.hash :: p.importing }
  | finish (hash : H256) : hash ∈ p.importing → validateBlock hash p.store = .ok () store →
    Step p { p with
      store
      importing := p.importing.erase hash
      imported := hash :: p.imported }
  | look (hash : H256) : p.store.isValidBlock hash → Step p { p with seen := hash :: p.seen }
  | set (state : ForkchoiceStateV1) : state.headBlockHash ∈ p.seen →
    state.safeBlockHash ∈ p.seen → state.finalizedBlockHash ∈ p.seen →
    Step p { p with store := p.store.withState state }

abbrev Reached := Relation.ReflTransGen Step start

def validated (store : ForkChoiceStore) (hash : H256) : Bool :=
  (store.blocks.lookup hash).any (·.validated)

structure Sound (p : Progress) : Prop where
  added : ∀ hash ∈ p.importing, hash ∈ p.store.blocks
  valid : ∀ hash, validated p.store hash → hash ∈ p.imported
  settled : ∀ hash ∈ p.imported, hash ∉ p.importing → validated p.store hash
  seen : ∀ hash ∈ p.seen, hash ≠ H256.zero → hash ∈ p.imported
  current : ∀ hash ∈ [p.store.head, p.store.safe, p.store.finalized],
    hash ≠ H256.zero → hash ∈ p.imported

section
variable {store : ForkChoiceStore} {hash : H256}

theorem isValidBlock_iff (hne : hash ≠ H256.zero) :
    store.isValidBlock hash ↔ validated store hash := by
  rw [isValidBlock, validated, if_neg hne]
  cases store.blocks.lookup hash with
  | none => rfl
  | some block => rfl

theorem validated_insert : validated { store with blocks := store.blocks.insert key block } hash =
    if hash = key then block.validated else validated store hash := by
  rw [validated, HashMap.lookup_insert_ite]
  split_ifs
  · rfl
  · rfl

theorem validateBlock_of_mem (h : hash ∈ store.blocks) : ∃ block : BlockInfo,
    validateBlock hash store = .ok () { store with
      blocks := store.blocks.insert hash { block with validated := true } } := by
  obtain ⟨block, hblk⟩ := mem_iff.mp h
  refine ⟨block, ?_⟩
  rw [validateBlock, bind_read, hblk]
  rfl

/-- Calls that nothing comes between take these steps. -/
theorem steps_validateAndImportPayload (p : Progress) (block : PayloadBlock) : ∃ p',
    validateAndImportPayload block (.ok ()) (.ok ()) p.store =
      .ok { status := .valid, latestValidHash := some block.hash, validationError := none }
        p'.store ∧ Relation.ReflTransGen Step p p' := by
  have hmem : block.hash ∈ (p.store.withBlock block.hash block.parentHash block.number
    block.difficulty).blocks := mem_insert.mpr (.inl rfl)
  obtain ⟨info, hfin⟩ := validateBlock_of_mem hmem
  refine ⟨_, ?_, .tail (.single (.add block)) (.finish _ mem_cons_self hfin)⟩
  rw [validateAndImportPayload, addBlock, bind_update, bind_of_ok hfin]
  rfl

theorem steps_updateForkchoice (p : Progress) (state : ForkchoiceStateV1) : ∃ status p',
    updateForkchoice state p.store = .ok status p'.store ∧ Relation.ReflTransGen Step p p' := by
  by_cases hpas : p.store.Passes state
  · have hhead := Step.look _ hpas.1
    have hsafe : Step { p with seen := state.headBlockHash :: p.seen } _ := .look _ hpas.2.1
    have hfin : Step { p with
        seen := state.safeBlockHash :: state.headBlockHash :: p.seen } _ := .look _ hpas.2.2
    exact ⟨_, _, updateForkchoice_of_passes hpas, (((Relation.ReflTransGen.single hhead).tail
      hsafe).tail hfin).tail (.set state (by simp) (by simp) (by simp))⟩
  · obtain ⟨msg, href⟩ := updateForkchoice_of_not_passes hpas
    exact ⟨_, p, href, .refl⟩

theorem Sound.step (H : Sound p) (h : Step p p') : Sound p' := by
  cases h with
  | add block =>
    refine ⟨fun hash hmem => ?_, fun hash hvld => ?_, fun hash himp hset => ?_, H.seen, H.current⟩
    · exact mem_insert.mpr ((mem_cons.mp hmem).imp_right (H.added hash))
    · rw [withBlock, validated_insert] at hvld
      split_ifs at hvld
      exact H.valid hash hvld
    · obtain ⟨hne, hset⟩ := not_or.mp (mt mem_cons.mpr hset)
      rw [withBlock, validated_insert, if_neg hne]
      exact H.settled hash himp hset
  | finish hash hmem hfini =>
    obtain ⟨block, hblk⟩ := validateBlock_of_mem (H.added hash hmem)
    cases hblk.symm.trans hfini
    refine ⟨fun other hoth => ?_, fun other hvld => ?_, fun other hoth hset => ?_,
      fun other hoth hne => mem_cons_of_mem _ (H.seen other hoth hne),
      fun other hoth hne => mem_cons_of_mem _ (H.current other hoth hne)⟩
    · exact mem_insert.mpr (.inr (H.added other (mem_of_mem_erase hoth)))
    · rw [validated_insert] at hvld
      split_ifs at hvld with heq
      · exact heq ▸ mem_cons_self
      · exact mem_cons_of_mem _ (H.valid other hvld)
    · rw [validated_insert]
      split_ifs with hne
      · rfl
      · exact H.settled other (mem_of_ne_of_mem hne hoth) (mt (mem_erase_of_ne hne).mpr hset)
  | look hash hvld =>
    refine ⟨H.added, H.valid, H.settled, forall_mem_cons.mpr ⟨fun hne => ?_, H.seen⟩, H.current⟩
    exact H.valid _ ((isValidBlock_iff hne).mp hvld)
  | set state hhead hsafe hfin =>
    refine ⟨H.added, H.valid, H.settled, H.seen, ?_⟩
    simp only [forall_mem_cons]
    exact ⟨H.seen _ hhead, H.seen _ hsafe, H.seen _ hfin, by simp⟩

theorem sound_of_reached (h : Reached p) : Sound p := by
  induction h with
  | refl => exact ⟨nofun, nofun, nofun, nofun, by simp [start, ForkChoiceStore.new]⟩
  | tail _ hstep H => exact H.step hstep

end

/-- In any interleaving no import fails after its block was added, the three blocks have been
imported, and so has every block that is found valid; an imported block is refused only while it is
being imported again. -/
theorem forkchoice_of_reached (h : Reached p) :
    (∀ hash ∈ p.importing, ∃ store, validateBlock hash p.store = .ok () store) ∧
    (∀ hash ∈ [p.store.head, p.store.safe, p.store.finalized],
      hash ≠ H256.zero → hash ∈ p.imported) ∧
    ∀ hash ≠ H256.zero, (p.store.isValidBlock hash → hash ∈ p.imported) ∧
      (hash ∈ p.imported → hash ∉ p.importing → p.store.isValidBlock hash) := by
  have H := sound_of_reached h
  refine ⟨fun hash hmem => ?_, H.current, fun hash hne => ?_⟩
  · obtain ⟨block, hblk⟩ := validateBlock_of_mem (H.added hash hmem)
    exact ⟨_, hblk⟩
  · rw [isValidBlock_iff hne]
    exact ⟨H.valid hash, H.settled hash⟩

open ForkChoiceStore.Sample in
theorem forkchoice_of_reached_sample : ∃ p, Reached p ∧ first ∈ p.importing ∧
    p.store.head = first ∧ first ∈ p.imported := by
  have h : Reached _ := ((((Relation.ReflTransGen.refl.tail (.add ⟨first, H256.zero, 1, 0⟩)).tail
    (.finish first (by decide) rfl)).tail (.look first rfl)).tail
      (.add ⟨first, H256.zero, 1, 0⟩)).tail
        (.set ⟨first, first, first⟩ (by decide) (by decide) (by decide))
  exact ⟨_, h, by decide, rfl, (forkchoice_of_reached h).2.1 first (by decide) (by decide)⟩

end EngineApiServer
end EthereumRust.Engine
