import EthereumRust.Types
import EthereumRust.Lib.History

/-!
# The fork choice of the engine API (`crates/engine/src/forkchoice.rs`)

The consensus client sets a head, a safe and a finalized block. Each of the three hashes has to be
the hash of a validated block or zero, and nothing else is asked of them: where the blocks lie in
the tree is never looked at.
-/

namespace EthereumRust.Engine
open Rust Rust.Method

inductive EngineError where
  | invalidJwt
  | unauthorized
  | invalidPayload (message : String)
  | unknownPayload
  | invalidForkChoiceState (message : String)
  | syncing
  | invalidTerminalBlock
  | internal (message : String)
  deriving DecidableEq, Repr

inductive PayloadStatus where
  | valid
  | invalid
  | syncing
  | accepted
  | invalidBlockHash
  deriving DecidableEq, Repr

structure PayloadStatusV1 where
  status : PayloadStatus
  latestValidHash : Option H256
  validationError : Option String
  deriving DecidableEq

structure ForkchoiceStateV1 where
  headBlockHash : H256
  safeBlockHash : H256
  finalizedBlockHash : H256

structure BlockInfo where
  hash : H256
  parentHash : H256
  number : UInt64
  totalDifficulty : U256
  validated : Bool

structure ForkChoiceStore where
  head : H256
  safe : H256
  finalized : H256
  blocks : HashMap H256 BlockInfo

namespace ForkChoiceStore

def new : ForkChoiceStore where
  head := H256.zero
  safe := H256.zero
  finalized := H256.zero
  blocks := ∅

def isValidBlock (self : ForkChoiceStore) (hash : H256) : Bool :=
  if hash = H256.zero then true
  else match self.blocks.lookup hash with
    | some block => block.validated
    | none => false

def refusal (self : ForkChoiceStore) (validationError : String) : PayloadStatusV1 :=
  { status := .invalid, latestValidHash := some self.finalized,
    validationError := some validationError }

def acceptance (state : ForkchoiceStateV1) : PayloadStatusV1 :=
  { status := .valid, latestValidHash := some state.headBlockHash, validationError := none }

def withState (self : ForkChoiceStore) (state : ForkchoiceStateV1) : ForkChoiceStore :=
  { self with
    head := state.headBlockHash
    safe := state.safeBlockHash
    finalized := state.finalizedBlockHash }

def updateForkchoice (state : ForkchoiceStateV1) :
    Method ForkChoiceStore EngineError PayloadStatusV1 := do
  let self ← read id
  if !self.isValidBlock state.headBlockHash then
    return self.refusal "Invalid head block"
  else if state.safeBlockHash ≠ H256.zero ∧ !self.isValidBlock state.safeBlockHash then
    return self.refusal "Invalid safe block"
  else if state.finalizedBlockHash ≠ H256.zero ∧ !self.isValidBlock state.finalizedBlockHash then
    return self.refusal "Invalid finalized block"
  else
    update (·.withState state)
    return acceptance state

def withBlock (self : ForkChoiceStore) (hash parentHash : H256) (number : UInt64)
    (totalDifficulty : U256) : ForkChoiceStore :=
  { self with
    blocks := self.blocks.insert hash
      { hash, parentHash, number, totalDifficulty, validated := false } }

def addBlock (hash parentHash : H256) (number : UInt64) (totalDifficulty : U256) :
    Method ForkChoiceStore EngineError Unit :=
  update (·.withBlock hash parentHash number totalDifficulty)

def validateBlock (hash : H256) : Method ForkChoiceStore EngineError Unit := do
  match ← read (·.blocks.lookup hash) with
  | some block =>
    update fun self => { self with
      blocks := self.blocks.insert hash { block with validated := true } }
  | none => fail (.invalidForkChoiceState "Block not found")

def parentOf (self : ForkChoiceStore) (hash : H256) : Option H256 :=
  (self.blocks.lookup hash).map (·.parentHash)

/-- `ancestor` is `hash` or found from there along the parents; zero is an ancestor of all. -/
def Ancestor (self : ForkChoiceStore) (ancestor hash : H256) : Prop :=
  ancestor = H256.zero ∨
    Relation.ReflTransGen (fun child parent => self.parentOf child = some parent) hash ancestor

structure Ordered (store : ForkChoiceStore) : Prop where
  finalized_safe : store.Ancestor store.finalized store.safe
  safe_head : store.Ancestor store.safe store.head

section
variable {s s' : ForkChoiceStore} {ancestor hash : H256}

theorem Ancestor.refl (s : ForkChoiceStore) (hash : H256) : s.Ancestor hash hash := .inr .refl

theorem Ancestor.mono (h : s.Ancestor ancestor hash)
    (hpar : ∀ child par, s.parentOf child = some par → s'.parentOf child = some par) :
    s'.Ancestor ancestor hash :=
  h.imp_right (Relation.ReflTransGen.mono hpar hash ancestor)

theorem Ordered.mono (h : Ordered s)
    (hpar : ∀ child par, s.parentOf child = some par → s'.parentOf child = some par)
    (hhead : s'.head = s.head) (hsafe : s'.safe = s.safe)
    (hfin : s'.finalized = s.finalized) : Ordered s' where
  finalized_safe := by
    rw [hfin, hsafe]
    exact h.finalized_safe.mono hpar
  safe_head := by
    rw [hsafe, hhead]
    exact h.safe_head.mono hpar

end

inductive ForkChoiceCall where
  | addBlock (hash parentHash : H256) (number : UInt64) (totalDifficulty : U256)
  | validateBlock (hash : H256)
  | updateForkchoice (state : ForkchoiceStateV1)

def after {α : Type} (call : Method ForkChoiceStore EngineError α) (self : ForkChoiceStore) :
    Option ForkChoiceStore :=
  match call self with
  | .ok _ self' => some self'
  | .err _ self' => some self'
  | .panic _ => none

def perform (self : ForkChoiceStore) : ForkChoiceCall → Option ForkChoiceStore
  | .addBlock hash parentHash number totalDifficulty =>
    after (addBlock hash parentHash number totalDifficulty) self
  | .validateBlock hash => after (validateBlock hash) self
  | .updateForkchoice state => after (updateForkchoice state) self

/-- The call returns, the three marks are in order and finality has not moved back. -/
def KeepsOrder (self : ForkChoiceStore) (call : ForkChoiceCall) : Prop :=
  ∃ self' ∈ self.perform call, Ordered self' ∧ self'.Ancestor self.finalized self'.finalized

def InOrder (self : ForkChoiceStore) (state : ForkchoiceStateV1) : Prop :=
  self.Ancestor state.finalizedBlockHash state.safeBlockHash ∧
    self.Ancestor state.safeBlockHash state.headBlockHash ∧
    self.Ancestor self.finalized state.finalizedBlockHash

def Passes (self : ForkChoiceStore) (state : ForkchoiceStateV1) : Prop :=
  self.isValidBlock state.headBlockHash ∧ self.isValidBlock state.safeBlockHash ∧
    self.isValidBlock state.finalizedBlockHash

/-- A path along the parents that takes no step from `moved`. -/
def PathAround (self : ForkChoiceStore) (moved : H256) : H256 → H256 → Prop :=
  Relation.ReflTransGen fun child parent => child ≠ moved ∧ self.parentOf child = some parent

/-- `ancestor` is found from `hash` around `moved`, or from the parent that `moved` is to get. -/
def AncestorVia (self : ForkChoiceStore) (moved parentHash ancestor hash : H256) : Prop :=
  ancestor = H256.zero ∨ self.PathAround moved hash ancestor ∨
    self.PathAround moved hash moved ∧ self.PathAround moved parentHash ancestor

/-- What the source leaves to its callers: an update that passes the checks names blocks in order,
and a block that is added again with another parent does not cut the three blocks apart. -/
def Respects (self : ForkChoiceStore) : ForkChoiceCall → Prop
  | .addBlock hash parentHash _ _ =>
    (∃ parent, self.parentOf hash = some parent ∧ parent ≠ parentHash) →
      self.AncestorVia hash parentHash self.finalized self.safe ∧
        self.AncestorVia hash parentHash self.safe self.head
  | .validateBlock _ => True
  | .updateForkchoice state => self.Passes state → self.InOrder state

section
variable {s : ForkChoiceStore} {hash : H256} {td : U256}

theorem parentOf_insert :
    ({ s with blocks := s.blocks.insert hash block }).parentOf child =
      if child = hash then some block.parentHash else s.parentOf child := by
  rw [parentOf, HashMap.lookup_insert_ite]
  split_ifs
  · rfl
  · rfl

theorem ancestor_withBlock_iff : (s.withBlock hash parentHash number td).Ancestor ancestor below ↔
    s.AncestorVia hash parentHash ancestor below := by
  have hmov : (s.withBlock hash parentHash number td).parentOf hash = some parentHash := by
    rw [withBlock, parentOf_insert, if_pos rfl]
  have hoth {child par : H256} (hne : child ≠ hash) :
      (s.withBlock hash parentHash number td).parentOf child = some par ↔
        s.parentOf child = some par := by
    rw [withBlock, parentOf_insert, if_neg hne]
  have haro {child par : H256} (h : s.PathAround hash child par) : Relation.ReflTransGen
      (fun child par => (s.withBlock hash parentHash number td).parentOf child = some par)
      child par :=
    Relation.ReflTransGen.mono (fun _ _ hstep => (hoth hstep.1).mpr hstep.2) _ _ h
  refine or_congr_right ⟨fun h => ?_, fun h => ?_⟩
  · -- on the way up, the last step from the moved block is the one that counts
    induction h using Relation.ReflTransGen.head_induction_on with
    | refl => exact .inl .refl
    | @head child par hstep _ ih =>
      by_cases hne : child = hash
      · subst hne
        obtain rfl := Option.some.inj (hmov.symm.trans hstep)
        exact .inr ⟨.refl, ih.elim id And.right⟩
      · have hstep := And.intro hne ((hoth hne).mp hstep)
        exact ih.imp (.head hstep) (And.imp_left (.head hstep))
  · rcases h with h | ⟨hto, hfrom⟩
    · exact haro h
    · exact (haro hto).trans (.head hmov (haro hfrom))

theorem Ordered.withBlock (h : Ordered s)
    (hsame : ¬∃ par, s.parentOf hash = some par ∧ par ≠ parentHash) :
    Ordered (s.withBlock hash parentHash number td) := by
  refine h.mono (fun child par hpar => ?_) rfl rfl rfl
  rw [ForkChoiceStore.withBlock, parentOf_insert]
  split_ifs with hch
  · rw [hch] at hpar
    by_contra hne
    exact hsame ⟨par, hpar, fun heq => hne (congrArg some heq.symm)⟩
  · exact hpar

theorem keepsOrder_of_perform (h : s.perform call = some s') :
    s.KeepsOrder call ↔ Ordered s' ∧ s'.Ancestor s.finalized s'.finalized := by
  simp [KeepsOrder, h]

theorem keepsOrder_addBlock (h : Ordered s) :
    s.KeepsOrder (.addBlock hash parentHash number td) ↔
      s.Respects (.addBlock hash parentHash number td) := by
  have hperf : s.perform (.addBlock hash parentHash number td) =
      some (s.withBlock hash parentHash number td) := rfl
  rw [keepsOrder_of_perform hperf]
  constructor
  · exact fun h' _ => ⟨ancestor_withBlock_iff.mp h'.1.1, ancestor_withBlock_iff.mp h'.1.2⟩
  · intro h'
    refine ⟨?_, Ancestor.refl _ _⟩
    by_cases hsame : ∃ par, s.parentOf hash = some par ∧ par ≠ parentHash
    · exact ⟨ancestor_withBlock_iff.mpr (h' hsame).1, ancestor_withBlock_iff.mpr (h' hsame).2⟩
    · exact h.withBlock hsame

theorem keepsOrder_validateBlock (h : Ordered s) : s.KeepsOrder (.validateBlock hash) := by
  cases hget : s.blocks.lookup hash with
  | none =>
    have hperf : s.perform (.validateBlock hash) = some s := by
      rw [perform, after, validateBlock, bind_read, hget]
      rfl
    exact (keepsOrder_of_perform hperf).mpr ⟨h, Ancestor.refl _ _⟩
  | some block =>
    have hperf : s.perform (.validateBlock hash) = some { s with
        blocks := s.blocks.insert hash { block with validated := true } } := by
      rw [perform, after, validateBlock, bind_read, hget]
      rfl
    refine (keepsOrder_of_perform hperf).mpr ⟨h.mono (fun child par hpar => ?_) rfl rfl rfl,
      Ancestor.refl _ _⟩
    rw [parentOf_insert]
    split_ifs with hch
    · rw [hch, parentOf, hget] at hpar
      exact hpar
    · exact hpar

theorem ne_zero_of_not_isValidBlock (h : ¬s.isValidBlock hash) : hash ≠ H256.zero := by
  rintro rfl
  exact h (if_pos rfl)

theorem updateForkchoice_of_passes (h : s.Passes state) :
    updateForkchoice state s = .ok (acceptance state) (s.withState state) := by
  obtain ⟨hhead, hsafe, hfin⟩ := h
  rw [updateForkchoice, bind_read, id, hhead, hsafe, hfin]
  simp only [Bool.not_true, Bool.false_eq_true, and_false]
  rfl

theorem updateForkchoice_of_not_passes (h : ¬self.Passes state) :
    ∃ message, updateForkchoice state self = .ok (self.refusal message) self := by
  rw [updateForkchoice, bind_read, id]
  by_cases hhead : self.isValidBlock state.headBlockHash
  · rw [hhead]
    by_cases hsafe : self.isValidBlock state.safeBlockHash
    · have hfin : ¬self.isValidBlock state.finalizedBlockHash :=
        fun hfin => h ⟨hhead, hsafe, hfin⟩
      have hne := ne_zero_of_not_isValidBlock hfin
      refine ⟨"Invalid finalized block", ?_⟩
      simp [hsafe, hfin, hne]
      rfl
    · have hne := ne_zero_of_not_isValidBlock hsafe
      refine ⟨"Invalid safe block", ?_⟩
      simp [hsafe, hne]
      rfl
  · refine ⟨"Invalid head block", ?_⟩
    simp [hhead]
    rfl

theorem perform_updateForkchoice [Decidable (s.Passes state)] :
    s.perform (.updateForkchoice state) =
      some (if s.Passes state then s.withState state else s) := by
  split_ifs with hpas
  · rw [perform, after, updateForkchoice_of_passes hpas]
  · obtain ⟨msg, href⟩ := updateForkchoice_of_not_passes hpas
    rw [perform, after, href]

theorem keepsOrder_updateForkchoice (h : Ordered s) :
    s.KeepsOrder (.updateForkchoice state) ↔ s.Respects (.updateForkchoice state) := by
  classical
  rw [keepsOrder_of_perform perform_updateForkchoice, Respects]
  split_ifs with hpas
  · rw [imp_iff_right hpas]
    exact ⟨fun ⟨⟨hfin, hsafe⟩, hlast⟩ => ⟨hfin, hsafe, hlast⟩,
      fun ⟨hfin, hsafe, hlast⟩ => ⟨⟨hfin, hsafe⟩, hlast⟩⟩
  · exact iff_of_true ⟨h, Ancestor.refl _ _⟩ fun hpas' => absurd hpas' hpas

theorem keepsOrder_iff (h : Ordered s) : s.KeepsOrder call ↔ s.Respects call := by
  cases call with
  | addBlock => exact keepsOrder_addBlock h
  | validateBlock => exact iff_of_true (keepsOrder_validateBlock h) trivial
  | updateForkchoice => exact keepsOrder_updateForkchoice h

end

theorem ordered_new : Ordered new := ⟨Ancestor.refl _ _, Ancestor.refl _ _⟩

/-- The three blocks are in order in every state, and finality never goes back, exactly if every
call respects what the source leaves to its callers. -/
theorem always_ordered_iff (calls : List ForkChoiceCall) :
    (Ordered new ∧ History.Along perform KeepsOrder new calls) ↔
      History.Along perform Respects new calls := by
  rw [and_iff_right ordered_new]
  refine History.along_iff Ordered (fun _ call h => keepsOrder_iff h) ?_ ordered_new
  intro s call s' _ hkee hperf
  exact ((keepsOrder_of_perform hperf).mp hkee).1

namespace Sample

def first : H256 := H256.ofU256 1

def second : H256 := H256.ofU256 2

def siblings : List ForkChoiceCall :=
  [.addBlock first H256.zero 1 1, .addBlock second H256.zero 1 1, .validateBlock first,
    .validateBlock second]

end Sample

open Sample in
/-- A fork choice with the head on one branch and the finalized block on the other. -/
theorem not_always_ordered_siblings :
    ¬History.Along perform KeepsOrder new
      (siblings ++ [.updateForkchoice ⟨first, second, second⟩]) := by
  rintro ⟨-, h⟩
  obtain ⟨-, h⟩ := h _ rfl
  obtain ⟨-, h⟩ := h _ rfl
  obtain ⟨-, h⟩ := h _ rfl
  obtain ⟨⟨store, hsto, hord, -⟩, -⟩ := h _ rfl
  cases hsto
  rcases hord.safe_head with hzero | hpath
  · exact absurd hzero (by decide)
  · rcases hpath.cases_head with heq | ⟨next, hnext, hpath⟩
    · exact absurd heq (by decide)
    · cases hnext
      rcases hpath.cases_head with heq | ⟨next, hnext, -⟩
      · exact absurd heq (by decide)
      · cases hnext

end ForkChoiceStore

end EthereumRust.Engine
