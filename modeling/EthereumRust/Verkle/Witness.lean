import EthereumRust.Verkle.Node
import Mathlib.Algebra.Group.Action.Defs
import Mathlib.Algebra.Order.BigOperators.Group.Finset
import Mathlib.Order.Interval.Finset.Nat

/-!
# Gas of a witness (`crates/verkle`: `witness.rs`)

The builder charges for an account, a storage slot or a chunk of code when it is first accessed. All
three kinds of items are touched in the same way, so that a run is one sequence of touched items.
-/

namespace EthereumRust.Verkle
open Rust List

structure AccountWitness where
  nonce : U256
  balance : U256
  codeHash : H256
  codeSize : UInt64

structure CodeChunk where
  offset : UInt64
  data : Bytes

structure VerkleWitness where
  stateRoot : Commitment
  accounts : HashMap Address AccountWitness
  storage : HashMap Address (HashMap H256 H256)
  codeChunks : HashMap H256 (List CodeChunk)
  gasUsed : UInt64

def witnessAccountCost : UInt64 := 2500

def witnessStorageCost : UInt64 := 2100

def witnessCodeChunkCost : UInt64 := 200

namespace VerkleWitness

def new (stateRoot : Commitment) : VerkleWitness := ⟨stateRoot, ∅, ∅, ∅, 0⟩

def addAccount (self : VerkleWitness) (address : Address) (account : AccountWitness) :
    Checked VerkleWitness := do
  let gasUsed ← addU64 self.gasUsed witnessAccountCost
  return { self with accounts := self.accounts.insert address account, gasUsed }

def addStorage (self : VerkleWitness) (address : Address) (slot value : H256) :
    Checked VerkleWitness := do
  let slots := (self.storage.lookup address).getD ∅
  let gasUsed ← addU64 self.gasUsed witnessStorageCost
  return { self with storage := self.storage.insert address (slots.insert slot value), gasUsed }

def addCodeChunk (self : VerkleWitness) (codeHash : H256) (chunk : CodeChunk) :
    Checked VerkleWitness := do
  let chunks := (self.codeChunks.lookup codeHash).getD []
  let gasUsed ← addU64 self.gasUsed witnessCodeChunkCost
  return { self with codeChunks := self.codeChunks.insert codeHash (chunks ++ [chunk]), gasUsed }

end VerkleWitness

section
variable {K V : Type} [DecidableEq K] [DecidableEq V]

def insertInto (m : HashMap K (Finset V)) (k : K) (v : V) : HashMap K (Finset V) :=
  m.insert k (insert v ((m.lookup k).getD ∅))

def isIn (m : HashMap K (Finset V)) (k : K) (v : V) : Bool := (m.lookup k).any (v ∈ ·)

theorem isIn_insertInto (m : HashMap K (Finset V)) :
    isIn (insertInto m k v) k' v' ↔ (k' = k ∧ v' = v) ∨ isIn m k' v' := by
  rw [isIn, insertInto, isIn]
  by_cases hk : k' = k
  · subst hk
    cases m.lookup k' <;> simp
  · simp [hk]

end

structure AccessList where
  accounts : Finset Address
  storage : HashMap Address (Finset H256)
  codeChunks : HashMap Address (Finset UInt64)

namespace AccessList

def new : AccessList := ⟨∅, ∅, ∅⟩

def addAccount (self : AccessList) (address : Address) : AccessList :=
  { self with accounts := insert address self.accounts }

def hasAccount (self : AccessList) (address : Address) : Bool := address ∈ self.accounts

def addStorage (self : AccessList) (address : Address) (slot : H256) : AccessList :=
  { self with storage := insertInto self.storage address slot }

def hasStorage (self : AccessList) (address : Address) (slot : H256) : Bool :=
  isIn self.storage address slot

def addCodeChunk (self : AccessList) (address : Address) (chunkIndex : UInt64) : AccessList :=
  { self with codeChunks := insertInto self.codeChunks address chunkIndex }

def hasCodeChunk (self : AccessList) (address : Address) (chunkIndex : UInt64) : Bool :=
  isIn self.codeChunks address chunkIndex

end AccessList

def inclusive (start stop : UInt64) : List UInt64 :=
  (List.range' start.toNat (stop.toNat + 1 - start.toNat)).map .ofNat

structure WitnessBuilder where
  witness : VerkleWitness
  accessList : AccessList

inductive Access where
  | account (address : Address)
  | storage (address : Address) (slot : H256)
  | code (address : Address) (offset size : UInt64)
  deriving DecidableEq

namespace WitnessBuilder

def new (stateRoot : Commitment) : WitnessBuilder := ⟨.new stateRoot, .new⟩

def accessAccount (self : WitnessBuilder) (address : Address) : Checked WitnessBuilder :=
  if self.accessList.hasAccount address then .ok self
  else do
    let witness ← self.witness.addAccount address ⟨0, 0, .zero, 0⟩
    return ⟨witness, self.accessList.addAccount address⟩

def accessStorage (self : WitnessBuilder) (address : Address) (slot : H256) :
    Checked WitnessBuilder :=
  if self.accessList.hasStorage address slot then .ok self
  else do
    let witness ← self.witness.addStorage address slot .zero
    return ⟨witness, self.accessList.addStorage address slot⟩

def accessCodeChunk (self : WitnessBuilder) (address : Address) (chunkIndex : UInt64) :
    Checked WitnessBuilder :=
  if self.accessList.hasCodeChunk address chunkIndex then .ok self
  else do
    let offset ← mulU64 chunkIndex 31
    let witness ← self.witness.addCodeChunk .zero ⟨offset, List.replicate 31 0⟩
    return ⟨witness, self.accessList.addCodeChunk address chunkIndex⟩

def accessCode (self : WitnessBuilder) (address : Address) (offset size : UInt64) :
    Checked WitnessBuilder := do
  let stop ← addU64 offset size
  let last ← subU64 stop 1
  (inclusive (offset / 31) (last / 31)).foldlM (·.accessCodeChunk address ·) self

def build (self : WitnessBuilder) : VerkleWitness := self.witness

def perform (self : WitnessBuilder) : Access → Checked WitnessBuilder
  | .account address => self.accessAccount address
  | .storage address slot => self.accessStorage address slot
  | .code address offset size => self.accessCode address offset size

def performAll (self : WitnessBuilder) (accesses : List Access) : Checked WitnessBuilder :=
  accesses.foldlM perform self

end WitnessBuilder

namespace Access

/-- A code access of at least one byte whose end is no overflow. -/
def InRange : Access → Prop
  | .code _ offset size => 0 < size.toNat ∧ offset.toNat + size.toNat < wordBound
  | _ => True

theorem InRange.subU64_one {addr : Address} (h : (code addr off size).InRange) :
    subU64 (off + size) 1 = .ok (off + size - 1) ∧
      (off + size - 1).toNat = off.toNat + size.toNat - 1 := by
  have hstop : (off + size).toNat = off.toNat + size.toNat := toNat_add_of_lt h.2
  have hle : 1 ≤ off + size := UInt64.le_iff_toNat_le.mpr <| by
    change 1 ≤ (off + size).toNat
    have := h.1
    omega
  rw [UInt64.toNat_sub_of_le _ _ hle, hstop]
  exact ⟨subU64_of_le hle, rfl⟩

def accounts : Access → Finset Address
  | .account address => {address}
  | _ => ∅

def slots : Access → Finset (Address × H256)
  | .storage address slot => {(address, slot)}
  | _ => ∅

/-- A byte of the code is in the chunk of its position divided by 31. -/
def chunks : Access → Finset (Address × Nat)
  | .code address offset size =>
    (Finset.Ico offset.toNat (offset.toNat + size.toNat)).image fun position =>
      (address, position / 31)
  | _ => ∅

end Access

/-- What a set of accesses costs: each distinct account, storage slot and chunk is paid once. -/
def accessCost (accesses : Finset Access) : Nat :=
  witnessAccountCost.toNat * (accesses.biUnion Access.accounts).card +
    witnessStorageCost.toNat * (accesses.biUnion Access.slots).card +
    witnessCodeChunkCost.toNat * (accesses.biUnion Access.chunks).card

abbrev Item := Address ⊕ (Address × H256) ⊕ (Address × UInt64)

def Item.cost : Item → Nat :=
  Sum.elim (fun _ => witnessAccountCost.toNat)
    (Sum.elim (fun _ => witnessStorageCost.toNat) fun _ => witnessCodeChunkCost.toNat)

def Item.Fits : Item → Prop
  | .inr (.inr (_, chunkIndex)) => chunkIndex.toNat * 31 < wordBound
  | _ => True

def AccessList.has (self : AccessList) : Item → Bool
  | .inl address => self.hasAccount address
  | .inr (.inl (address, slot)) => self.hasStorage address slot
  | .inr (.inr (address, chunkIndex)) => self.hasCodeChunk address chunkIndex

def AccessList.add (self : AccessList) : Item → AccessList
  | .inl address => self.addAccount address
  | .inr (.inl (address, slot)) => self.addStorage address slot
  | .inr (.inr (address, chunkIndex)) => self.addCodeChunk address chunkIndex

theorem AccessList.hasAccount_iff {self : AccessList} :
    self.hasAccount addr ↔ addr ∈ self.accounts := decide_eq_true_iff

theorem AccessList.has_add (self : AccessList) :
    (self.add item).has other ↔ other = item ∨ self.has other := by
  rcases item with addr | ⟨addr, slot⟩ | ⟨addr, chunkIndex⟩ <;>
    rcases other with addr' | ⟨addr', slot'⟩ | ⟨addr', chunkIndex'⟩ <;>
    simp [add, has, hasAccount_iff, addAccount, addStorage, hasStorage, addCodeChunk, hasCodeChunk,
      isIn_insertInto]

def Access.items : Access → List Item
  | .account address => [.inl address]
  | .storage address slot => [.inr (.inl (address, slot))]
  | .code address offset size =>
    (inclusive (offset / 31) ((offset + size - 1) / 31)).map fun chunkIndex =>
      .inr (.inr (address, chunkIndex))

namespace WitnessBuilder
variable {self : WitnessBuilder} {item : Item} {items : Finset Item}

def touch (self : WitnessBuilder) : Item → Checked WitnessBuilder
  | .inl address => self.accessAccount address
  | .inr (.inl (address, slot)) => self.accessStorage address slot
  | .inr (.inr (address, chunkIndex)) => self.accessCodeChunk address chunkIndex

theorem touch_of_has (h : self.accessList.has item) : self.touch item = .ok self := by
  match item with
  | .inl _ => exact if_pos h
  | .inr (.inl _) => exact if_pos h
  | .inr (.inr _) => exact if_pos h

theorem touch_of_not_has (h : ¬self.accessList.has item) (hfits : item.Fits)
    (hcost : self.witness.gasUsed.toNat + item.cost < wordBound) :
    ∃ self', self.touch item = .ok self' ∧ self'.accessList = self.accessList.add item ∧
      self'.witness.gasUsed.toNat = self.witness.gasUsed.toNat + item.cost := by
  match item with
  | .inl addr =>
    change _ + witnessAccountCost.toNat < _ at hcost
    change ∃ self', (if self.accessList.has (.inl addr) then _ else _) = _ ∧ _
    rw [if_neg h, VerkleWitness.addAccount, addU64_of_lt hcost]
    exact ⟨_, rfl, rfl, toNat_add_of_lt hcost⟩
  | .inr (.inl (addr, slot)) =>
    change _ + witnessStorageCost.toNat < _ at hcost
    change ∃ self', (if self.accessList.has (.inr (.inl (addr, slot))) then _ else _) = _ ∧ _
    rw [if_neg h, VerkleWitness.addStorage, addU64_of_lt hcost]
    exact ⟨_, rfl, rfl, toNat_add_of_lt hcost⟩
  | .inr (.inr (addr, chunkIndex)) =>
    change chunkIndex.toNat * UInt64.toNat 31 < _ at hfits
    change _ + witnessCodeChunkCost.toNat < _ at hcost
    change ∃ self', (if self.accessList.has (.inr (.inr (addr, chunkIndex))) then _ else _) = _ ∧ _
    rw [if_neg h, mulU64_of_lt hfits]
    change ∃ self', (VerkleWitness.addCodeChunk _ _ _ >>= _) = _ ∧ _
    rw [VerkleWitness.addCodeChunk, addU64_of_lt hcost]
    exact ⟨_, rfl, rfl, toNat_add_of_lt hcost⟩

structure Charged (builder : WitnessBuilder) (items : Finset Item) : Prop where
  has : ∀ item, builder.accessList.has item ↔ item ∈ items
  gas : builder.witness.gasUsed.toNat = ∑ item ∈ items, item.cost

theorem Charged.touch (h : self.Charged items) (hfits : item.Fits)
    (hcost : ∑ item ∈ insert item items, item.cost < wordBound) :
    ∃ self', self.touch item = .ok self' ∧ self'.Charged (insert item items) := by
  by_cases hitem : item ∈ items
  · rw [Finset.insert_eq_self.mpr hitem]
    exact ⟨self, touch_of_has ((h.has item).mpr hitem), h⟩
  · rw [Finset.sum_insert hitem, add_comm, ← h.gas] at hcost
    obtain ⟨self', htou, hhas, hgas⟩ := touch_of_not_has (mt (h.has item).mp hitem) hfits hcost
    refine ⟨self', htou, fun other => ?_, ?_⟩
    · rw [hhas, AccessList.has_add, Finset.mem_insert, h.has]
    · rw [hgas, Finset.sum_insert hitem, add_comm, h.gas]

theorem Charged.touchAll {touched : List Item} (h : self.Charged items)
    (hfits : ∀ item ∈ touched, item.Fits)
    (hcost : ∑ item ∈ items ∪ touched.toFinset, item.cost < wordBound) :
    ∃ self', touched.foldlM WitnessBuilder.touch self = .ok self' ∧
      self'.Charged (items ∪ touched.toFinset) := by
  induction touched generalizing self items with
  | nil => exact ⟨self, rfl, by rwa [toFinset_nil, Finset.union_empty]⟩
  | cons item touched ih =>
    obtain ⟨hitem, hfits⟩ := forall_mem_cons.mp hfits
    rw [toFinset_cons, Finset.union_insert, ← Finset.insert_union] at hcost ⊢
    obtain ⟨self₁, htouc, h⟩ := h.touch hitem
      (lt_of_le_of_lt (Finset.sum_le_sum_of_subset Finset.subset_union_left) hcost)
    obtain ⟨self', htou, h⟩ := ih h hfits hcost
    refine ⟨self', ?_, h⟩
    rw [foldlM_cons, htouc]
    exact htou

theorem perform_eq (h : access.InRange) : self.perform access = access.items.foldlM touch self := by
  match access with
  | .account addr => exact (bind_pure _).symm
  | .storage addr slot => exact (bind_pure _).symm
  | .code addr off size =>
    rw [perform, accessCode, addU64_of_lt h.2, Access.items, foldlM_map]
    change (subU64 (off + size) 1 >>= _) = _
    rw [h.subU64_one.1]
    rfl

theorem performAll_eq (h : ∀ access ∈ accesses, access.InRange) :
    self.performAll accesses = (accesses.flatMap Access.items).foldlM touch self := by
  induction accesses generalizing self with
  | nil => rfl
  | cons access accesses ih =>
    obtain ⟨hacc, h⟩ := forall_mem_cons.mp h
    rw [performAll, foldlM_cons, perform_eq hacc, flatMap_cons, foldlM_append]
    exact congrArg (_ >>= ·) (funext fun self => ih h)

end WitnessBuilder

namespace Access

theorem mem_inclusive {start stop index : UInt64} :
    index ∈ inclusive start stop ↔ start.toNat ≤ index.toNat ∧ index.toNat ≤ stop.toNat := by
  have hstop := toNat_lt_wordBound stop
  simp only [inclusive, mem_map, mem_range'_1]
  constructor
  · rintro ⟨n, hn, rfl⟩
    rw [toNat_ofNat_of_lt (by omega)]
    omega
  · intro h
    exact ⟨index.toNat, by omega, UInt64.ofNat_toNat⟩

theorem mem_items_iff {access : Access} (h : access.InRange) {addr : Address} :
    .inr (.inr (addr, index)) ∈ access.items ↔ (addr, index.toNat) ∈ access.chunks := by
  match access with
  | .account _ => exact iff_of_false (by simp [items]) (Finset.notMem_empty _)
  | .storage _ _ => exact iff_of_false (by simp [items]) (Finset.notMem_empty _)
  | .code addr' off size =>
    have hsize := h.1
    have hlast := h.subU64_one.2
    simp only [items, chunks, mem_map, Finset.mem_image, Finset.mem_Ico, mem_inclusive,
      UInt64.toNat_div, Sum.inr.injEq, Prod.mk.injEq]
    change (∃ _, (off.toNat / 31 ≤ _ ∧ _ ≤ _ / 31) ∧ _) ↔ _
    constructor
    · rintro ⟨index, hidx, rfl, rfl⟩
      exact ⟨max off.toNat (31 * index.toNat), by omega, rfl, by omega⟩
    · rintro ⟨pos, hpos, rfl, hidx⟩
      exact ⟨index, by omega, rfl, rfl⟩

theorem lt_of_mem_chunks {access : Access} (h : access.InRange)
    (hchk : chunk ∈ access.chunks) : chunk.2 * 31 < wordBound := by
  match access with
  | .account _ => exact absurd hchk (Finset.notMem_empty _)
  | .storage _ _ => exact absurd hchk (Finset.notMem_empty _)
  | .code _ off size =>
    obtain ⟨pos, hpos, rfl⟩ := Finset.mem_image.mp hchk
    have := (Finset.mem_Ico.mp hpos).2
    have := h.2
    change pos / 31 * 31 < _
    omega

end Access

section
variable {accesses : List Access} (hrng : ∀ access ∈ accesses, access.InRange)
include hrng

theorem fits_of_inRange : ∀ item ∈ accesses.flatMap Access.items, item.Fits := by
  intro item hitem
  obtain ⟨access, hacc, hitem⟩ := mem_flatMap.mp hitem
  rcases item with _ | _ | ⟨addr, index⟩
  · trivial
  · trivial
  · have h := hrng access hacc
    have hlt := Access.lt_of_mem_chunks h ((Access.mem_items_iff h).mp hitem)
    exact hlt

theorem toNat_ofNat_chunk (hchk : chunk ∈ accesses.toFinset.biUnion Access.chunks) :
    (UInt64.ofNat chunk.2).toNat = chunk.2 := by
  obtain ⟨access, hacc, hchk⟩ := Finset.mem_biUnion.mp hchk
  have := Access.lt_of_mem_chunks (hrng access (mem_toFinset.mp hacc)) hchk
  exact toNat_ofNat_of_lt (by omega)

theorem toFinset_items : (accesses.flatMap Access.items).toFinset =
    (accesses.toFinset.biUnion Access.accounts).disjSum
      ((accesses.toFinset.biUnion Access.slots).disjSum
        ((accesses.toFinset.biUnion Access.chunks).image (Prod.map id UInt64.ofNat))) := by
  ext item
  rw [mem_toFinset, mem_flatMap]
  rcases item with addr | ⟨addr, slot⟩ | ⟨addr, index⟩
  · simp only [Finset.inl_mem_disjSum, Finset.mem_biUnion, mem_toFinset]
    refine exists_congr fun access => and_congr_right fun _ => ?_
    cases access <;> simp [Access.items, Access.accounts]
  · simp only [Finset.inr_mem_disjSum, Finset.inl_mem_disjSum, Finset.mem_biUnion, mem_toFinset]
    refine exists_congr fun access => and_congr_right fun _ => ?_
    cases access <;> simp [Access.items, Access.slots]
  · rw [Finset.inr_mem_disjSum, Finset.inr_mem_disjSum, Finset.mem_image]
    constructor
    · rintro ⟨access, hacc, hitem⟩
      refine ⟨(addr, index.toNat), Finset.mem_biUnion.mpr ⟨access, mem_toFinset.mpr hacc,
        (Access.mem_items_iff (hrng access hacc)).mp hitem⟩, ?_⟩
      exact Prod.ext rfl UInt64.ofNat_toNat
    · rintro ⟨⟨addr', n⟩, hchk, heq⟩
      obtain ⟨rfl, rfl⟩ := Prod.mk.inj heq
      have hn := toNat_ofNat_chunk hrng hchk
      obtain ⟨access, hacc, hchk⟩ := Finset.mem_biUnion.mp hchk
      rw [mem_toFinset] at hacc
      refine ⟨access, hacc, (Access.mem_items_iff (hrng access hacc)).mpr ?_⟩
      rwa [hn]

theorem card_chunks :
    ((accesses.toFinset.biUnion Access.chunks).image (Prod.map id UInt64.ofNat)).card =
      (accesses.toFinset.biUnion Access.chunks).card := by
  refine Finset.card_image_of_injOn fun chunk hchk chunk' hchk' heq => ?_
  obtain ⟨haddr, hidx⟩ := Prod.ext_iff.mp heq
  refine Prod.ext haddr ?_
  rw [← toNat_ofNat_chunk hrng hchk, ← toNat_ofNat_chunk hrng hchk']
  exact congrArg UInt64.toNat hidx

theorem sum_cost_items :
    ∑ item ∈ (accesses.flatMap Access.items).toFinset, item.cost =
      accessCost accesses.toFinset := by
  rw [toFinset_items hrng, Finset.sum_disjSum, Finset.sum_disjSum]
  simp only [Item.cost, Sum.elim_inl, Sum.elim_inr, Finset.sum_const]
  rw [card_chunks hrng, accessCost]
  ring

end

namespace WitnessBuilder

theorem charged_new : (new stateRoot).Charged ∅ where
  has item := by
    refine (iff_false_right (Finset.notMem_empty item)).mpr ?_
    rcases item with _ | _ | _ <;> exact Bool.false_ne_true
  gas := rfl

/-- The gas of the built witness is the cost of the set of accesses, for every sequence of accesses
to non-empty ranges of code, as long as no `u64` overflows. -/
theorem gasUsed_performAll (stateRoot : Commitment) (accesses : List Access)
    (hrng : ∀ access ∈ accesses, access.InRange)
    (hcost : accessCost accesses.toFinset < wordBound) :
    ∃ builder, (new stateRoot).performAll accesses = .ok builder ∧
      builder.build.gasUsed.toNat = accessCost accesses.toFinset ∧
      ∀ accesses' : List Access, accesses'.toFinset = accesses.toFinset →
        ∃ builder', (new stateRoot).performAll accesses' = .ok builder' ∧
          builder'.build.gasUsed = builder.build.gasUsed := by
  have hrun (accesses' : List Access) (h : accesses'.toFinset = accesses.toFinset) :
      ∃ builder, (new stateRoot).performAll accesses' = .ok builder ∧
        builder.build.gasUsed.toNat = accessCost accesses.toFinset := by
    have hrng' : ∀ access ∈ accesses', access.InRange := fun access hacc =>
      hrng access (mem_toFinset.mp (h ▸ mem_toFinset.mpr hacc))
    have hsum := sum_cost_items hrng'
    rw [h] at hsum
    obtain ⟨builder, htou, hcha⟩ := charged_new.touchAll (fits_of_inRange hrng') (hsum ▸ hcost)
    exact ⟨builder, (performAll_eq hrng').trans htou, hcha.gas.trans hsum⟩
  obtain ⟨builder, hperf, hgas⟩ := hrun accesses rfl
  refine ⟨builder, hperf, hgas, fun accesses' h => ?_⟩
  obtain ⟨builder', hperf', hgas'⟩ := hrun accesses' h
  exact ⟨builder', hperf', UInt64.toNat_inj.mp (hgas'.trans hgas.symm)⟩

namespace Sample

def accesses : List Access :=
  [.code .zero 30 2, .account .zero, .storage .zero .zero, .code .zero 31 1, .account .zero]

theorem gasUsed_performAll_five : ∃ builder,
    (new .default).performAll accesses = .ok builder ∧ builder.build.gasUsed.toNat = 5000 := by
  have hcost : accessCost accesses.toFinset = 5000 := by decide
  have hrng : ∀ access ∈ accesses, access.InRange := by
    simp [accesses, Access.InRange, wordBound]
  obtain ⟨builder, hperf, hgas, -⟩ := gasUsed_performAll .default accesses hrng (hcost ▸ by decide)
  exact ⟨builder, hperf, hgas.trans hcost⟩

end Sample

end WitnessBuilder

end EthereumRust.Verkle
