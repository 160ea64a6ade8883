import EthereumRust.Lib.Kademlia
import EthereumRust.Types

/-!
# The routing table of discovery v4 (`crates/network`: `discovery.rs`)

Node ids have 512 bits. The bucket of a node is the logarithm of the distance between its id and the
local one, so it lies between 0 and 511. But the table has 256 buckets: a call for a node that
differs from the local one in the first 256 bits panics. Such a call has not written anything.
-/

namespace EthereumRust.Network.Discovery

open Rust Kademlia List

abbrev H512 := List.Vector UInt8 64

/-- The fields `address` and `public_key`, which the table only hands on, are of any type. -/
structure NodeId (Contact : Type) where
  id : H512
  contact : Contact
  deriving DecidableEq

def distance (self other : H512) : H512 :=
  ⟨List.zipWith (· ^^^ ·) self.toList other.toList, by simp⟩

def bit (bytes : List UInt8) (i : Nat) : Bool :=
  (bytes.getD (i / 8) 0 >>> UInt8.ofNat (7 - i % 8)) &&& 1 == 1

def logDistance (self other : H512) : Option Nat :=
  (List.range 512).findSome? fun i =>
    if bit (distance self other).toList i then some (511 - i) else none

theorem getD_distance :
    (distance a b).toList.getD j 0 = a.toList.getD j 0 ^^^ b.toList.getD j 0 := by
  change (zipWith _ _ _).getD j 0 = _
  by_cases hj : j < 64
  · simp [hj]
  · simp [not_lt.mp hj]

theorem and_one_eq (byte : UInt8) : (byte &&& 1 == 1) = byte.toNat.testBit 0 := by
  rw [Bool.eq_iff_iff, beq_iff_eq, ← UInt8.toNat_inj, Nat.testBit_zero, decide_eq_true_iff]
  exact Nat.and_one_is_mod byte.toNat ▸ Iff.rfl

theorem bit_eq : bit bytes i = (bytes.getD (i / 8) 0).toNat.testBit (7 - i % 8) := by
  have hshi : (UInt8.ofNat (7 - i % 8)).toNat % 8 = 7 - i % 8 := by
    rw [UInt8.toNat_ofNat']
    omega
  rw [bit, and_one_eq, UInt8.toNat_shiftRight, hshi, Nat.testBit_shiftRight, add_zero]

theorem byte_eq_zero {byte : UInt8} (h : ∀ k < 8, byte.toNat.testBit k = false) : byte = 0 := by
  apply UInt8.toNat_inj.mp
  apply Nat.eq_of_testBit_eq
  intro k
  rw [UInt8.toNat_zero, Nat.zero_testBit]
  by_cases hk : k < 8
  · exact h k hk
  · refine Nat.testBit_lt_two_pow (lt_of_lt_of_le byte.toNat_lt ?_)
    exact Nat.pow_le_pow_right (by decide) (not_lt.mp hk)

theorem bits_eq_false_iff (hm : m ≤ 64) :
    (∀ i < 8 * m, bit (distance a b).toList i = false) ↔ a.toList.take m = b.toList.take m := by
  simp only [bit_eq, getD_distance]
  constructor
  · intro h
    refine ext_getElem (by simp) fun j hj hj' => ?_
    have hjm : j < m := by simp at hj; omega
    have hzero : a.toList.getD j 0 ^^^ b.toList.getD j 0 = 0 := by
      refine byte_eq_zero fun k hk => ?_
      have hbit := h (8 * j + (7 - k)) (by omega)
      have hdiv : (8 * j + (7 - k)) / 8 = j := by omega
      have hmod : 7 - (8 * j + (7 - k)) % 8 = k := by omega
      rwa [hdiv, hmod] at hbit
    have hja : j < a.toList.length := by simp; omega
    have hjb : j < b.toList.length := by simp; omega
    simp only [getD_eq_getElem?_getD, getElem?_eq_getElem, hja, hjb, Option.getD_some,
      UInt8.xor_eq_zero_iff] at hzero
    rw [getElem_take, getElem_take, hzero]
  · intro h i hi
    have hbyte : a.toList.getD (i / 8) 0 = b.toList.getD (i / 8) 0 := by
      have hget := congrArg (·.getD (i / 8) 0) h
      have hlt : i / 8 < m := by omega
      simpa [getD_eq_getElem?_getD, getElem?_take, hlt] using hget
    rw [hbyte, UInt8.xor_self, UInt8.toNat_zero, Nat.zero_testBit]

theorem logDistance_lt_iff :
    (∀ d, logDistance a b = some d → d < 256) ↔ a.toList.take 32 = b.toList.take 32 := by
  rw [← bits_eq_false_iff (by decide)]
  have hspl : range 512 = range 256 ++ (range 256).map (256 + ·) :=
    range_add (n := 256) (m := 256)
  rw [logDistance, hspl, findSome?_append]
  constructor
  · intro h i hi
    rw [← Bool.not_eq_true]
    intro hbit
    -- a bit among the first ones is found first, and its index is at least 256
    cases hfst : (range 256).findSome? fun i =>
        if bit (distance a b).toList i then some (511 - i) else none with
    | none =>
      have := findSome?_eq_none_iff.mp hfst i (mem_range.mpr hi)
      rw [if_pos hbit] at this
      cases this
    | some d =>
      obtain ⟨j, hj, hd⟩ := exists_of_findSome?_eq_some hfst
      have hlt := h d (by rw [hfst]; rfl)
      have hj := mem_range.mp hj
      split_ifs at hd
      have := Option.some.inj hd
      omega
  · intro h d hd
    have hfst : ((range 256).findSome? fun i =>
        if bit (distance a b).toList i then some (511 - i) else none) = none := by
      refine findSome?_eq_none_iff.mpr fun i hi => ?_
      rw [h i (mem_range.mp hi)]
      rfl
    rw [hfst, Option.none_or] at hd
    obtain ⟨j, hj, hd⟩ := exists_of_findSome?_eq_some hd
    obtain ⟨k, -, rfl⟩ := mem_map.mp hj
    split_ifs at hd
    have := Option.some.inj hd
    omega

variable {Contact : Type}

structure KBucket (Contact : Type) where
  nodes : List (NodeId Contact)
  capacity : Nat

namespace KBucket

def new (capacity : Nat) : KBucket Contact := ⟨[], capacity⟩

def add (self : KBucket Contact) (node : NodeId Contact) : KBucket Contact × Bool :=
  if self.nodes.any (·.id == node.id) then
    ({ self with nodes := node :: takeOut (·.id) node self.nodes }, true)
  else if self.nodes.length < self.capacity then ({ self with nodes := node :: self.nodes }, true)
  else (self, false)

def remove (self : KBucket Contact) (id : H512) : KBucket Contact :=
  { self with nodes := self.nodes.filter (·.id != id) }

variable {s : KBucket Contact} {node : NodeId Contact}

theorem mem_add (h : n ∈ (s.add node).1.nodes) : n ∈ s.nodes ∨ n = node := by
  unfold add at h
  split_ifs at h
  · rcases mem_cons.mp h with rfl | h
    · exact .inr rfl
    · exact .inl (mem_of_mem_eraseP h)
  · rcases mem_cons.mp h with rfl | h
    · exact .inr rfl
    · exact .inl h
  · exact .inl h

theorem nodup_add (h : (s.nodes.map (·.id)).Nodup) : ((s.add node).1.nodes.map (·.id)).Nodup := by
  unfold add
  split_ifs with hany
  · exact nodup_cons_takeOut h
  · refine nodup_cons.mpr ⟨?_, h⟩
    intro hmem
    obtain ⟨n, hn, hid⟩ := mem_map.mp hmem
    exact hany (any_eq_true.mpr ⟨n, hn, beq_iff_eq.mpr hid⟩)
  · exact h

theorem length_add (h : s.nodes.length ≤ s.capacity) :
    (s.add node).1.nodes.length ≤ (s.add node).1.capacity := by
  unfold add
  split_ifs with hany hspa
  · obtain ⟨n, hn, hid⟩ := any_eq_true.mp hany
    have := length_takeOut (·.id) ⟨n, hn, beq_iff_eq.mp hid⟩
    simp only [length_cons]
    omega
  · exact hspa
  · exact h

end KBucket

def bucketSize : Nat := 16

structure RoutingTable (Contact : Type) where
  buckets : List (KBucket Contact)
  localId : H512

namespace RoutingTable

def new (localId : H512) : RoutingTable Contact := ⟨List.replicate 256 (.new bucketSize), localId⟩

def bucketIndex (self : RoutingTable Contact) (id : H512) : Option Nat :=
  logDistance self.localId id

def updateBucket (self : RoutingTable Contact) (id : H512)
    (f : KBucket Contact → KBucket Contact) : Checked (RoutingTable Contact) :=
  match self.bucketIndex id with
  | some index =>
    if index < self.buckets.length then .ok { self with buckets := self.buckets.modify index f }
    else .error .slice
  | none => .ok self

def addNode (self : RoutingTable Contact) (node : NodeId Contact) :
    Checked (RoutingTable Contact) :=
  if node.id = self.localId then .ok self
  else self.updateBucket node.id fun bucket => (bucket.add node).1

def removeNode (self : RoutingTable Contact) (id : H512) : Checked (RoutingTable Contact) :=
  self.updateBucket id (·.remove id)

def nodes (self : RoutingTable Contact) : List (NodeId Contact) := self.buckets.flatMap (·.nodes)

def findNearest (self : RoutingTable Contact) (target : H512) (count : Nat) :
    List (NodeId Contact) :=
  (Batches.sortByKey (fun node => ofBigEndian (Discovery.distance node.id target).toList)
    self.nodes).take count

end RoutingTable

inductive Call (Contact : Type) where
  | addNode (node : NodeId Contact)
  | removeNode (id : H512)

def Call.id : Call Contact → H512
  | .addNode node => node.id
  | .removeNode id => id

namespace RoutingTable

def perform (self : RoutingTable Contact) : Call Contact → Checked (RoutingTable Contact)
  | .addNode node => self.addNode node
  | .removeNode id => self.removeNode id

def after (self : RoutingTable Contact) (calls : List (Call Contact)) : RoutingTable Contact :=
  calls.foldl (fun self call => (self.perform call).toOption.getD self) self

structure Sound (table : RoutingTable Contact) : Prop where
  capacity : ∀ bucket ∈ table.buckets, bucket.nodes.length ≤ bucket.capacity
  nodup : (table.nodes.map (·.id)).Nodup
  local_absent : ∀ node ∈ table.nodes, node.id ≠ table.localId
  placed : ∀ (i : Nat) (bucket : KBucket Contact), table.buckets[i]? = some bucket →
    ∀ node ∈ bucket.nodes, logDistance table.localId node.id = some i

/-- No call panics, and after them the table is sound and finds the nearest nodes. -/
def Behaves (localId : H512) (calls : List (Call Contact)) : Prop :=
  (∀ pre call, pre ++ [call] <+: calls →
      ∃ table, ((new localId).after pre).perform call = .ok table) ∧
    ((new localId).after calls).Sound ∧
    ∀ target count, IsNearest (fun node => Kademlia.distance node.id.toList target.toList) count
      ((new localId).after calls).nodes (((new localId).after calls).findNearest target count)

structure Inv (localId : H512) (table : RoutingTable Contact) : Prop where
  localId_eq : table.localId = localId
  length_eq : table.buckets.length = 256
  capacity : ∀ bucket ∈ table.buckets, bucket.nodes.length ≤ bucket.capacity
  placed : Placed (·.nodes) (·.id) (logDistance localId) table.buckets
  local_absent : ∀ bucket ∈ table.buckets, ∀ node ∈ bucket.nodes, node.id ≠ localId

section
variable {localId : H512} {s : RoutingTable Contact}

theorem inv_new (localId : H512) : Inv localId (new localId : RoutingTable Contact) := by
  have hemp : ∀ bkt ∈ (new localId : RoutingTable Contact).buckets, bkt = .new bucketSize :=
    fun _ hbkt => (mem_replicate.mp hbkt).2
  refine ⟨rfl, length_replicate, ?_, placed_of_forall_eq_nil ?_, ?_⟩
  · intro bkt hbkt
    rw [hemp bkt hbkt]
    exact Nat.zero_le _
  · intro bkt hbkt
    rw [hemp bkt hbkt]
    rfl
  · intro bkt hbkt node hnode
    rw [hemp bkt hbkt] at hnode
    cases hnode

theorem updateBucket_eq_ok {id : H512}
    (h : s.updateBucket id f = .ok table) : table = s ∨ ∃ index,
      logDistance s.localId id = some index ∧
      table = { s with buckets := s.buckets.modify index f } := by
  unfold updateBucket bucketIndex at h
  cases hpl : logDistance s.localId id with
  | none =>
    rw [hpl] at h
    cases h
    exact .inl rfl
  | some index =>
    rw [hpl] at h
    dsimp only at h
    split_ifs at h
    cases h
    exact .inr ⟨index, rfl, rfl⟩

theorem Inv.updateBucket (h : Inv localId s) {id : H512} (hok : s.updateBucket id f = .ok table)
    (hcap : ∀ bkt : KBucket Contact, bkt.nodes.length ≤ bkt.capacity →
      (f bkt).nodes.length ≤ (f bkt).capacity)
    (hnd : ∀ bkt : KBucket Contact, (bkt.nodes.map (·.id)).Nodup → ((f bkt).nodes.map (·.id)).Nodup)
    (hmem : ∀ bkt : KBucket Contact, ∀ node ∈ (f bkt).nodes,
      node ∈ bkt.nodes ∨ node.id = id ∧ id ≠ localId) : Inv localId table := by
  obtain rfl | ⟨index, hpl, rfl⟩ := updateBucket_eq_ok hok
  · exact h
  rw [h.localId_eq] at hpl
  refine ⟨h.localId_eq, (length_modify ..).trans h.length_eq,
    forall_modify h.capacity fun bkt _ => hcap bkt,
    h.placed.modify ?_ fun bkt _ => hnd bkt, forall_modify h.local_absent ?_⟩
  · rintro bkt - node hnode
    rcases hmem bkt node hnode with hnode | ⟨hid, -⟩
    · exact .inl hnode
    · exact .inr (hid ▸ hpl)
  · rintro bkt - habs node hnode
    rcases hmem bkt node hnode with hnode | ⟨hid, hne⟩
    · exact habs node hnode
    · exact hid ▸ hne

theorem Inv.addNode (h : Inv localId s) (hok : s.addNode node = .ok table) : Inv localId table := by
  unfold RoutingTable.addNode at hok
  split_ifs at hok with hloc
  · cases hok
    exact h
  refine h.updateBucket hok (fun _ => KBucket.length_add) (fun _ => KBucket.nodup_add) ?_
  intro bkt n hn
  rcases KBucket.mem_add hn with hn | rfl
  · exact .inl hn
  · exact .inr ⟨rfl, h.localId_eq ▸ hloc⟩

theorem Inv.removeNode (h : Inv localId s) {id : H512} (hok : s.removeNode id = .ok table) :
    Inv localId table := by
  refine h.updateBucket hok ?_ ?_ ?_
  · intro bkt hle
    exact (length_filter_le _ _).trans hle
  · intro bkt hnd
    exact hnd.sublist (filter_sublist.map _)
  · intro bkt n hn
    exact .inl (mem_of_mem_filter hn)

theorem Inv.perform (h : Inv localId s) (hok : s.perform call = .ok table) : Inv localId table := by
  cases call with
  | addNode node => exact h.addNode hok
  | removeNode id => exact h.removeNode hok

theorem Inv.after (h : Inv localId s) (calls : List (Call Contact)) :
    Inv localId (s.after calls) := by
  induction calls generalizing s with
  | nil => exact h
  | cons call calls ih =>
    apply ih
    dsimp only
    cases hcall : s.perform call with
    | ok table => exact h.perform hcall
    | error p => exact h

theorem Inv.sound (h : Inv localId s) : s.Sound where
  capacity := h.capacity
  nodup := h.placed.nodup_flatMap
  local_absent node hnode := by
    obtain ⟨bkt, hbkt, hnode⟩ := mem_flatMap.mp hnode
    rw [h.localId_eq]
    exact h.local_absent bkt hbkt node hnode
  placed i bkt hbkt node hnode := by
    rw [h.localId_eq]
    exact h.placed.place_eq hbkt node hnode

theorem sound_after (calls : List (Call Contact)) : ((new localId).after calls).Sound :=
  ((inv_new localId).after calls).sound

theorem Sound.findNearest (h : s.Sound) (tgt : H512) (count : Nat) :
    IsNearest (fun node => Kademlia.distance node.id.toList tgt.toList) count s.nodes
      (s.findNearest tgt count) := by
  refine isNearest_sortByKey ?_ count
  have hinj : Function.Injective fun id : H512 => Kademlia.distance id.toList tgt.toList := by
    intro a b hab
    have hlen := tgt.toList_length
    exact a.eq b (distance_inj (a.toList_length.trans hlen.symm)
      (b.toList_length.trans hlen.symm) hab)
  have hnd := h.nodup.map hinj
  rwa [map_map] at hnd

theorem Inv.updateBucket_eq_ok_iff (h : Inv localId s) (id : H512) :
    (∃ table, s.updateBucket id f = .ok table) ↔ localId.toList.take 32 = id.toList.take 32 := by
  rw [← logDistance_lt_iff]
  unfold RoutingTable.updateBucket bucketIndex
  rw [h.localId_eq, h.length_eq]
  generalize logDistance localId id = place
  cases place with
  | none => simp
  | some index => by_cases hidx : index < 256 <;> simp [hidx]

theorem Inv.perform_eq_ok_iff (h : Inv localId s) :
    (∃ table, s.perform call = .ok table) ↔ call.id.toList.take 32 = localId.toList.take 32 := by
  rw [eq_comm (a := call.id.toList.take 32)]
  unfold RoutingTable.perform Call.id
  cases call with
  | addNode node =>
    dsimp only
    by_cases hloc : node.id = localId
    · rw [RoutingTable.addNode, if_pos (hloc.trans h.localId_eq.symm), hloc]
      exact iff_of_true ⟨s, rfl⟩ rfl
    · rw [RoutingTable.addNode, if_neg (h.localId_eq ▸ hloc)]
      exact h.updateBucket_eq_ok_iff node.id
  | removeNode id => exact h.updateBucket_eq_ok_iff id

end

/-- The table behaves for calls about ids whose first 256 bits are those of the local one, and for
no others: every other call panics. -/
theorem behaves_iff (localId : H512) (calls : List (Call Contact)) :
    Behaves localId calls ↔ ∀ call ∈ calls, call.id.toList.take 32 = localId.toList.take 32 := by
  constructor
  · rintro ⟨hrng, -, -⟩ call hcall
    obtain ⟨pre, post, rfl⟩ := append_of_mem hcall
    refine (((inv_new localId).after pre).perform_eq_ok_iff).mp (hrng pre call ?_)
    exact ⟨post, by simp⟩
  · intro h
    refine ⟨fun pre call hpre => ?_, sound_after calls, (sound_after calls).findNearest⟩
    refine (((inv_new localId).after pre).perform_eq_ok_iff).mpr (h call ?_)
    exact hpre.subset (mem_append_right pre mem_cons_self)

namespace Sample

def localId : H512 := ⟨List.replicate 64 0, List.length_replicate⟩

def far : NodeId Unit := ⟨⟨0x80 :: List.replicate 63 0, rfl⟩, ()⟩

/-- At distance 511 there is no bucket: `add_node` panics. -/
theorem addNode_far : logDistance localId far.id = some 511 ∧ ¬Behaves localId [.addNode far] := by
  refine ⟨by decide +kernel, ?_⟩
  rintro ⟨hrng, -⟩
  obtain ⟨table, htab⟩ := hrng [] (.addNode far) (prefix_refl _)
  have hpan : ((new localId).perform (.addNode far)).isOk = false := by decide +kernel
  change (new localId).perform (.addNode far) = _ at htab
  rw [htab] at hpan
  cases hpan

end Sample

end RoutingTable

end EthereumRust.Network.Discovery
