import EthereumRust.Lib.History
import EthereumRust.Lib.Kademlia
import EthereumRust.Types

/-!
# The routing table of discovery v5 (`crates/network`: `discovery_v5.rs`)

Node ids have 256 bits, and the table has a bucket for each logarithm of a distance to the local
node, the last one for the two greatest. Beside the buckets it keeps the record of every node.
-/

namespace EthereumRust.Network.DiscoveryV5

open Rust Rust.Method Kademlia List Finmap

inductive DiscoveryError where
  | invalidEnr (message : String)
  | invalidSignature
  | nodeNotFound
  | bucketFull
  | networkError (message : String)
  | decodingError (message : String)
  deriving DecidableEq

abbrev NodeId := H256

/-- The fields besides `node_id`, which the table only hands on, are of any type. -/
structure Enr (Fields : Type) where
  nodeId : NodeId
  fields : Fields

def distance (self other : NodeId) : U256 :=
  .fromBigEndian (List.zipWith (· ^^^ ·) self.toList other.toList)

/-- `256 - leading_zeros` is the number of bits. -/
def logDistance (self other : NodeId) : Option Nat :=
  if (distance self other).isZero then none else some (distance self other).bits

structure KBucket where
  nodes : List NodeId
  capacity : Nat

def KBucket.add (self : KBucket) (nodeId : NodeId) : Except DiscoveryError KBucket :=
  if self.nodes.contains nodeId then
    .ok { self with nodes := self.nodes.erase nodeId ++ [nodeId] }
  else if self.nodes.length < self.capacity then .ok { self with nodes := self.nodes ++ [nodeId] }
  else .error .bucketFull

def KBucket.remove (self : KBucket) (nodeId : NodeId) : KBucket :=
  { self with nodes := self.nodes.filter (· != nodeId) }

section
variable {s bkt : KBucket} {nid : NodeId}

theorem KBucket.mem_of_add (h : s.add nid = .ok bkt) (x : NodeId) :
    x ∈ bkt.nodes ↔ x = nid ∨ x ∈ s.nodes := by
  unfold KBucket.add at h
  split_ifs at h with hmem
  · cases h
    by_cases hx : x = nid
    · simp [hx]
    · simp [hx, mem_erase_of_ne hx]
  · cases h
    simp [or_comm]

theorem KBucket.nodup_of_add (h : s.add nid = .ok bkt) (hnd : s.nodes.Nodup) : bkt.nodes.Nodup := by
  unfold KBucket.add at h
  split_ifs at h with hmem
  · cases h
    rw [nodup_append_comm]
    exact nodup_cons.mpr ⟨hnd.not_mem_erase, hnd.erase nid⟩
  · cases h
    rw [nodup_append_comm]
    exact nodup_cons.mpr ⟨fun h => hmem (contains_iff_mem.mpr h), hnd⟩

theorem KBucket.length_of_add (h : s.add nid = .ok bkt)
    (hle : s.capacity = 16 ∧ s.nodes.length ≤ 16) : bkt.capacity = 16 ∧ bkt.nodes.length ≤ 16 := by
  unfold KBucket.add at h
  split_ifs at h with hmem hspa
  · cases h
    refine ⟨hle.1, ?_⟩
    have hlen := length_erase_of_mem (contains_iff_mem.mp hmem)
    rw [length_append, hlen, length_singleton]
    omega
  · cases h
    refine ⟨hle.1, ?_⟩
    rw [length_append, length_singleton]
    omega

end

/-- The times that the table notes, and the number of failures, are not read. -/
structure RoutingTable (Fields : Type) where
  localId : NodeId
  buckets : List KBucket
  nodeInfo : HashMap NodeId (Enr Fields)

namespace RoutingTable

def new (localId : NodeId) : RoutingTable Fields where
  localId
  buckets := List.replicate 256 ⟨[], 16⟩
  nodeInfo := ∅

def bucketIndex (self : RoutingTable Fields) (nodeId : NodeId) : Except DiscoveryError Nat :=
  match logDistance self.localId nodeId with
  | some d => .ok (min d 255)
  | none => .error .nodeNotFound

def bucketAt (self : RoutingTable Fields) (index : Nat) : Checked KBucket :=
  match self.buckets[index]? with
  | some bucket => .ok bucket
  | none => .error .slice

def addNode (enr : Enr Fields) : Method (RoutingTable Fields) DiscoveryError Unit := do
  let self ← read id
  if enr.nodeId = self.localId then return ()
  else do
    let index ← result (self.bucketIndex enr.nodeId)
    let bucket ← self.bucketAt index
    let bucket ← result (bucket.add enr.nodeId)
    update fun self => { self with
      buckets := self.buckets.set index bucket
      nodeInfo := self.nodeInfo.insert enr.nodeId enr }

def removeNode (nodeId : NodeId) : Method (RoutingTable Fields) DiscoveryError Unit := do
  let self ← read id
  match self.bucketIndex nodeId with
  | .ok index => do
    let bucket ← self.bucketAt index
    update fun self => { self with
      buckets := self.buckets.set index (bucket.remove nodeId)
      nodeInfo := self.nodeInfo.erase nodeId }
  | .error _ => return ()

def ids (self : RoutingTable Fields) : List NodeId := self.buckets.flatMap (·.nodes)

def closestNodes (self : RoutingTable Fields) (target : NodeId) (limit : Nat) :
    List (Enr Fields) :=
  let nodesWithDistance := self.buckets.flatMap fun bucket =>
    bucket.nodes.map fun nodeId => (nodeId, DiscoveryV5.distance nodeId target)
  ((Batches.sortByKey (fun node : NodeId × U256 => node.2.toNat) nodesWithDistance).take limit
    ).filterMap fun node => self.nodeInfo.lookup node.1

end RoutingTable

inductive Call (Fields : Type) where
  | addNode (enr : Enr Fields)
  | removeNode (nodeId : NodeId)

abbrev Answer (Fields : Type) := Call Fields × Except DiscoveryError Unit

section
variable {Fields : Type}

/-- The last record of a node that was stored. -/
def lastStored (past : List (Answer Fields)) (nodeId : NodeId) : Option (Enr Fields) :=
  past.foldl (fun stored answer =>
    match answer with
    | (.addNode enr, .ok ()) => if enr.nodeId = nodeId then some enr else stored
    | _ => stored) none

namespace RoutingTable

def perform : Call Fields → Method (RoutingTable Fields) DiscoveryError Unit
  | .addNode enr => addNode enr
  | .removeNode nodeId => removeNode nodeId

/-- The table gives this answer to the call. -/
def Answers (table : RoutingTable Fields) (answer : Answer Fields) (table' : RoutingTable Fields) :
    Prop :=
  perform answer.1 table =
    match answer.2 with
    | .ok () => .ok () table'
    | .error e => .err e table'

def place (localId nodeId : NodeId) : Option Nat := (logDistance localId nodeId).map (min · 255)

structure Sound (table : RoutingTable Fields) : Prop where
  keys : ∀ nodeId, nodeId ∈ table.nodeInfo ↔ nodeId ∈ table.ids
  nodup : table.ids.Nodup
  length_le : ∀ bucket ∈ table.buckets, bucket.nodes.length ≤ 16
  local_absent : table.localId ∉ table.ids
  placed : ∀ (i : Nat) (bucket : KBucket), table.buckets[i]? = some bucket →
    ∀ nodeId ∈ bucket.nodes, place table.localId nodeId = some i

theorem lastStored_concat (past : List (Answer Fields)) :
    lastStored (past ++ [answer]) nid =
      match answer with
      | (.addNode enr, .ok ()) => if enr.nodeId = nid then some enr else lastStored past nid
      | _ => lastStored past nid := by
  rw [lastStored, foldl_append]
  rfl

structure Inv (localId : NodeId) (past : List (Answer Fields)) (table : RoutingTable Fields) :
    Prop where
  localId_eq : table.localId = localId
  length_eq : table.buckets.length = 256
  capacity : ∀ bucket ∈ table.buckets, bucket.capacity = 16 ∧ bucket.nodes.length ≤ 16
  placed : Placed (·.nodes) id (place localId) table.buckets
  local_absent : ∀ bucket ∈ table.buckets, localId ∉ bucket.nodes
  stored : ∀ nodeId ∈ table.ids, ∃ enr,
    table.nodeInfo.lookup nodeId = some enr ∧ lastStored past nodeId = some enr
  lookup_none : ∀ nodeId, nodeId ∉ table.ids → table.nodeInfo.lookup nodeId = none

section
variable {localId : NodeId} {s : RoutingTable Fields}

theorem inv_new (localId : NodeId) : Inv localId [] (new localId : RoutingTable Fields) := by
  have hemp : ∀ bkt ∈ (new localId : RoutingTable Fields).buckets, bkt = ⟨[], 16⟩ :=
    fun _ hbkt => (mem_replicate.mp hbkt).2
  have hids : ∀ nid, nid ∉ (new localId : RoutingTable Fields).ids := by
    intro nid hmem
    obtain ⟨bkt, hbkt, hmem⟩ := mem_flatMap.mp hmem
    rw [hemp bkt hbkt] at hmem
    cases hmem
  refine ⟨rfl, length_replicate, ?_, placed_of_forall_eq_nil ?_, ?_, ?_, ?_⟩
  · intro bkt hbkt
    rw [hemp bkt hbkt]
    exact ⟨rfl, Nat.zero_le _⟩
  · intro bkt hbkt
    rw [hemp bkt hbkt]
  · intro bkt hbkt
    rw [hemp bkt hbkt]
    exact not_mem_nil
  · intro nid hmem
    exact absurd hmem (hids nid)
  · intro nid _
    exact lookup_empty nid

theorem bucketIndex_eq :
    s.bucketIndex nid =
      match place s.localId nid with
      | some index => .ok index
      | none => .error .nodeNotFound := by
  unfold bucketIndex place
  cases logDistance s.localId nid <;> rfl

theorem place_lt (h : place localId nid = some index) : index < 256 := by
  obtain ⟨d, -, rfl⟩ := Option.map_eq_some_iff.mp h
  omega

theorem Inv.bucketAt (h : Inv localId past s) (hpl : place localId nid = some index) :
    ∃ bkt, s.buckets[index]? = some bkt ∧ s.bucketAt index = .ok bkt := by
  have hlt : index < s.buckets.length := h.length_eq ▸ place_lt hpl
  refine ⟨s.buckets[index], getElem?_eq_getElem hlt, ?_⟩
  rw [RoutingTable.bucketAt, getElem?_eq_getElem hlt]

theorem Inv.same (h : Inv localId past s)
    (hsto : ∀ nid, nid ≠ localId → lastStored (past ++ [answer]) nid = lastStored past nid) :
    Inv localId (past ++ [answer]) s := by
  refine { h with stored := fun nid hmem => ?_ }
  rw [hsto]
  · exact h.stored nid hmem
  · rintro rfl
    obtain ⟨bkt, hbkt, hmem⟩ := mem_flatMap.mp hmem
    exact h.local_absent bkt hbkt hmem

theorem Inv.set (h : Inv localId past s) {nid : NodeId} {index : Nat}
    {nodeInfo : HashMap NodeId (Enr Fields)} (hpl : place localId nid = some index)
    (hbkt : s.buckets[index]? = some bkt) (hcap : bkt'.capacity = 16 ∧ bkt'.nodes.length ≤ 16)
    (hnd : bkt'.nodes.Nodup) (hbkt' : ∀ x ≠ nid, x ∈ bkt'.nodes ↔ x ∈ bkt.nodes)
    (hloc : nid ∈ bkt'.nodes → nid ≠ localId)
    (hinfo : ∀ x ≠ nid, nodeInfo.lookup x = s.nodeInfo.lookup x)
    (hlast : ∀ x ≠ nid, lastStored (past ++ [answer]) x = lastStored past x)
    (hmem : nid ∈ bkt'.nodes → ∃ enr, nodeInfo.lookup nid = some enr ∧
      lastStored (past ++ [answer]) nid = some enr)
    (hnot : nid ∉ bkt'.nodes → nodeInfo.lookup nid = none) :
    Inv localId (past ++ [answer]) { s with buckets := s.buckets.set index bkt', nodeInfo } := by
  have hlt : index < s.buckets.length := h.length_eq ▸ place_lt hpl
  have hoth : ∀ x ≠ nid, x ∈ (s.buckets.set index bkt').flatMap (·.nodes) ↔
      x ∈ s.ids := by
    intro x hx
    rw [set_eq_modify]
    refine mem_flatMap_modify fun old hold => ?_
    rw [hbkt] at hold
    cases hold
    exact hbkt' x hx
  have hpla : Placed (·.nodes) id (place localId) (s.buckets.set index bkt') := by
    rw [set_eq_modify]
    refine h.placed.modify (fun old hold x hx => ?_) fun _ _ _ => ?_
    · rw [hbkt] at hold
      cases hold
      by_cases hne : x = nid
      · exact .inr (hne ▸ hpl)
      · exact .inl ((hbkt' x hne).mp hx)
    · rwa [map_id]
  have hself : nid ∈ (s.buckets.set index bkt').flatMap (·.nodes) ↔
      nid ∈ bkt'.nodes := by
    have hnew : (s.buckets.set index bkt')[index]? = some bkt' := getElem?_set_self hlt
    rw [mem_flatMap_iff]
    constructor
    · rintro ⟨j, old, hold, hx⟩
      have hj := hpla.place_eq hold nid hx
      rw [id, hpl] at hj
      cases hj
      rw [hnew] at hold
      cases hold
      exact hx
    · intro hx
      exact ⟨index, bkt', hnew, hx⟩
  refine ⟨h.localId_eq, (length_set ..).trans h.length_eq, ?_, hpla, ?_, ?_, ?_⟩
  · rw [set_eq_modify]
    exact forall_modify h.capacity fun _ _ _ => hcap
  · rw [set_eq_modify]
    refine forall_modify h.local_absent fun old hold habs hx => ?_
    by_cases hne : localId = nid
    · subst hne
      exact hloc hx rfl
    · rw [hbkt] at hold
      cases hold
      exact habs ((hbkt' localId hne).mp hx)
  · intro x hx
    by_cases hne : x = nid
    · subst hne
      exact hmem (hself.mp hx)
    · rw [hinfo x hne, hlast x hne]
      exact h.stored x ((hoth x hne).mp hx)
  · intro x hx
    by_cases hne : x = nid
    · subst hne
      exact hnot fun hmem => hx (hself.mpr hmem)
    · rw [hinfo x hne]
      exact h.lookup_none x fun hmem => hx ((hoth x hne).mpr hmem)

theorem addNode_eq
    (hne : enr.nodeId ≠ s.localId) :
    addNode enr s =
      match place s.localId enr.nodeId with
      | none => .err .nodeNotFound s
      | some index =>
        match s.bucketAt index with
        | .error p => .panic p
        | .ok bkt =>
          match bkt.add enr.nodeId with
          | .error e => .err e s
          | .ok bkt => .ok () { s with
              buckets := s.buckets.set index bkt
              nodeInfo := s.nodeInfo.insert enr.nodeId enr } := by
  rw [addNode, bind_read, id, if_neg hne, bucketIndex_eq]
  cases place s.localId enr.nodeId with
  | none => rfl
  | some index =>
    dsimp only
    rw [bind_result_of_ok rfl]
    cases hbkt : s.bucketAt index with
    | error p => rfl
    | ok bkt =>
      rw [bind_checked_of_ok rfl]
      dsimp only
      cases bkt.add enr.nodeId <;> rfl

theorem removeNode_eq (s : RoutingTable Fields) (nid : NodeId) :
    removeNode nid s =
      match place s.localId nid with
      | none => .ok () s
      | some index =>
        match s.bucketAt index with
        | .error p => .panic p
        | .ok bkt => .ok () { s with
            buckets := s.buckets.set index (bkt.remove nid)
            nodeInfo := s.nodeInfo.erase nid } := by
  rw [removeNode, bind_read, id, bucketIndex_eq]
  cases place s.localId nid with
  | none => rfl
  | some index =>
    dsimp only
    cases hbkt : s.bucketAt index with
    | error p => rfl
    | ok bkt =>
      rfl

theorem Inv.addNode (h : Inv localId past s) (enr : Enr Fields) :
    ∃ answer s', Answers s (.addNode enr, answer) s' ∧
      Inv localId (past ++ [(.addNode enr, answer)]) s' := by
  have hlast : ∀ x ≠ enr.nodeId, lastStored (past ++ [(.addNode enr, .ok ())]) x =
      lastStored past x := by
    intro x hx
    rw [lastStored_concat]
    exact if_neg (Ne.symm hx)
  by_cases hloc : enr.nodeId = localId
  · refine ⟨.ok (), s, ?_, h.same fun x hx => hlast x (hloc ▸ hx)⟩
    change RoutingTable.addNode enr s = _
    rw [RoutingTable.addNode, bind_read, id, if_pos (hloc.trans h.localId_eq.symm)]
    rfl
  have heq := addNode_eq (h.localId_eq ▸ hloc)
  have hself : place s.localId enr.nodeId = place localId enr.nodeId := by rw [h.localId_eq]
  cases hpl : place localId enr.nodeId with
  | none =>
    rw [hself, hpl] at heq
    exact ⟨.error .nodeNotFound, s, heq, h.same fun x _ => lastStored_concat ..⟩
  | some index =>
    obtain ⟨bkt, hbkt, hat⟩ := h.bucketAt hpl
    rw [hself, hpl] at heq
    dsimp only at heq
    rw [hat] at heq
    dsimp only at heq
    cases hadd : bkt.add enr.nodeId with
    | error e =>
      rw [hadd] at heq
      exact ⟨.error e, s, heq, h.same fun x _ => lastStored_concat ..⟩
    | ok bkt' =>
      rw [hadd] at heq
      have hold := mem_of_getElem? hbkt
      have hmem := KBucket.mem_of_add hadd
      have hin := (hmem enr.nodeId).mpr (.inl rfl)
      refine ⟨.ok (), _, heq, h.set hpl hbkt
        (KBucket.length_of_add hadd (h.capacity bkt hold))
        (KBucket.nodup_of_add hadd ?_) ?_ (fun _ => hloc) ?_ hlast ?_ ?_⟩
      · simpa using h.placed.nodup bkt hold
      · intro x hx
        rw [hmem x, or_iff_right hx]
      · intro x hx
        exact lookup_insert_of_ne _ hx
      · intro _
        refine ⟨enr, lookup_insert _, ?_⟩
        rw [lastStored_concat]
        exact if_pos rfl
      · intro hout
        exact absurd hin hout

theorem Inv.removeNode (h : Inv localId past s) (nid : NodeId) :
    ∃ answer s', Answers s (.removeNode nid, answer) s' ∧
      Inv localId (past ++ [(.removeNode nid, answer)]) s' := by
  have hlast : ∀ x, lastStored (past ++ [(.removeNode nid, .ok ())]) x = lastStored past x :=
    fun x => lastStored_concat ..
  have heq := removeNode_eq s nid
  have hself : place s.localId nid = place localId nid := by rw [h.localId_eq]
  cases hpl : place localId nid with
  | none =>
    rw [hself, hpl] at heq
    exact ⟨.ok (), s, heq, h.same fun x _ => hlast x⟩
  | some index =>
    obtain ⟨bkt, hbkt, hat⟩ := h.bucketAt hpl
    rw [hself, hpl] at heq
    dsimp only at heq
    rw [hat] at heq
    have hold := mem_of_getElem? hbkt
    have hout : nid ∉ (bkt.remove nid).nodes := by
      simp [KBucket.remove]
    refine ⟨.ok (), _, heq, h.set hpl hbkt ?_ ?_ ?_ (fun hin => absurd hin hout) ?_
      (fun x _ => hlast x) (fun hin => absurd hin hout) ?_⟩
    · obtain ⟨hcap, hle⟩ := h.capacity bkt hold
      exact ⟨hcap, (length_filter_le _ _).trans hle⟩
    · have hnd := h.placed.nodup bkt hold
      rw [map_id] at hnd
      exact hnd.filter _
    · intro x hx
      simp [KBucket.remove, hx]
    · intro x hx
      exact lookup_erase_ne hx
    · intro _
      exact lookup_erase ..

theorem Inv.next (h : Inv localId past s) (call : Call Fields) :
    ∃ answer s', Answers s (call, answer) s' ∧ Inv localId (past ++ [(call, answer)]) s' := by
  cases call with
  | addNode enr => exact h.addNode enr
  | removeNode nid => exact h.removeNode nid

theorem exists_run (calls : List (Call Fields)) :
    ∃ past table, past.map Prod.fst = calls ∧
      History.Run (fun _ => Answers) (new localId) past table ∧ Inv localId past table := by
  induction calls using reverseRecOn with
  | nil => exact ⟨[], new localId, rfl, .start, inv_new localId⟩
  | append_singleton calls call ih =>
    obtain ⟨past, table, rfl, hrun, h⟩ := ih
    obtain ⟨answer, table', hans, h⟩ := h.next call
    exact ⟨past ++ [(call, answer)], table', by simp, hrun.next hans, h⟩

theorem Inv.sound (h : Inv localId past s) : s.Sound where
  keys nid := by
    rw [← lookup_isSome]
    constructor
    · intro hsome
      by_contra hout
      rw [h.lookup_none nid hout] at hsome
      cases hsome
    · intro hin
      obtain ⟨enr, henr, -⟩ := h.stored nid hin
      rw [henr]
      rfl
  nodup := by
    have hnd := h.placed.nodup_flatMap
    rwa [map_id] at hnd
  length_le bkt hbkt := (h.capacity bkt hbkt).2
  local_absent hin := by
    obtain ⟨bkt, hbkt, hin⟩ := mem_flatMap.mp hin
    exact h.local_absent bkt hbkt (h.localId_eq ▸ hin)
  placed i bkt hbkt nid hin := by
    rw [h.localId_eq]
    exact h.placed.place_eq hbkt nid hin

end

theorem toNat_distance :
    (DiscoveryV5.distance a b).toNat = Kademlia.distance a.toList b.toList := by
  have hlt := ofBigEndian_lt (zipWith (· ^^^ ·) a.toList b.toList)
  have hlen : (zipWith (· ^^^ ·) a.toList b.toList).length = 32 := by simp
  rw [hlen] at hlt
  exact Nat.mod_eq_of_lt hlt

theorem closestNodes_eq (s : RoutingTable Fields) :
    s.closestNodes tgt limit = ((Batches.sortByKey
      (fun nid => Kademlia.distance nid.toList tgt.toList) s.ids).take limit).filterMap
        s.nodeInfo.lookup := by
  simp only [closestNodes, ← map_flatMap, Batches.sortByKey_map, toNat_distance,
    ← map_take, filterMap_map]
  rfl

theorem isNearest_ids {s : RoutingTable Fields} (h : s.ids.Nodup) (tgt : NodeId)
    (limit : Nat) : IsNearest (fun nid => Kademlia.distance nid.toList tgt.toList) limit
      s.ids ((Batches.sortByKey (fun nid => Kademlia.distance nid.toList tgt.toList)
        s.ids).take limit) := by
  refine isNearest_sortByKey (h.map fun a b hab => ?_) limit
  have hlen := tgt.toList_length
  exact a.eq b (distance_inj (a.toList_length.trans hlen.symm)
    (b.toList_length.trans hlen.symm) hab)

theorem map_some_filterMap {α β : Type} {f g : α → Option β} {l : List α}
    (h : ∀ a ∈ l, ∃ b, f a = some b ∧ g a = some b) : (l.filterMap f).map some = l.map g := by
  induction l with
  | nil => rfl
  | cons a l ih =>
    obtain ⟨⟨b, hf, hg⟩, hl⟩ := forall_mem_cons.mp h
    rw [filterMap_cons, hf, map_cons, map_cons, hg, ih hl]

theorem Inv.closestNodes {localId : NodeId} {past : List (Answer Fields)}
    (h : Inv localId past s) (tgt : NodeId) (limit : Nat) : ∃ ids,
      IsNearest (fun nid => Kademlia.distance nid.toList tgt.toList) limit s.ids ids ∧
      (s.closestNodes tgt limit).map some = ids.map (lastStored past) := by
  have hnea := isNearest_ids h.sound.nodup tgt limit
  refine ⟨_, hnea, ?_⟩
  rw [closestNodes_eq]
  exact map_some_filterMap fun nid hin => h.stored nid (hnea.subperm.subset hin)

/-- After every sequence of calls the table is sound, and `closestNodes` returns the last records of
the nearest ids. -/
theorem run_sound (localId : NodeId) (calls : List (Call Fields)) :
    ∃ past table, past.map Prod.fst = calls ∧
      History.Run (fun _ => Answers) (new localId) past table ∧ table.Sound ∧
      ∀ tgt limit, ∃ ids,
        IsNearest (fun nid => Kademlia.distance nid.toList tgt.toList) limit table.ids
            ids ∧
          (table.closestNodes tgt limit).map some = ids.map (lastStored past) := by
  obtain ⟨past, table, hpast, hrun, h⟩ := exists_run calls
  exact ⟨past, table, hpast, hrun, h.sound, h.closestNodes⟩

end RoutingTable

end

end EthereumRust.Network.DiscoveryV5
