import EthereumRust.Lib.Grouping
import EthereumRust.Parallel.Graph

/-!
# Parallel groups (`crates/parallel-execution`: `dependency_graph.rs`)

`find_parallel_groups` goes through the transactions in a topological order. A transaction that is
in no group yet opens one, and all others that are connected to it in neither direction join. The
groups are a partition. But nobody asks whether those that join are connected to each other.
-/

namespace EthereumRust.Parallel

open Rust List Grouping

namespace DependencyGraph

section
variable [Toposort] [PathSearch]

def topologicalOrder (self : DependencyGraph) : Except ParallelExecutionError (List Nat) :=
  match toposort self.graph with
  | some nodes => .ok (nodes.filterMap (self.graph.weights[·]?))
  | none => .error (.schedulingError "Cycle detected in dependency graph")

omit [Toposort] in
def hasPath (self : DependencyGraph) (source target : Nat) : Bool :=
  match self.txToNode.lookup source, self.txToNode.lookup target with
  | some sourceNode, some targetNode => hasPathConnecting self.graph sourceNode targetNode
  | _, _ => false

omit [Toposort] in
def apart (self : DependencyGraph) (txIdx otherIdx : Nat) : Bool :=
  !self.hasPath txIdx otherIdx && !self.hasPath otherIdx txIdx

def findParallelGroups (self : DependencyGraph) : List (List Nat) :=
  match self.topologicalOrder with
  | .error _ => []
  | .ok order => Grouping.groups self.apart order

end

inductive Reachable : DependencyGraph → Prop where
  | new : Reachable .new
  | addTransaction {self : DependencyGraph} (index : Nat) (tx : Transaction) :
    Reachable self → Reachable (self.addTransaction index tx)
  | addDependency {self self' : DependencyGraph} (source target : Nat) :
    Reachable self → self.addDependency source target = .ok self' → Reachable self'

structure Consistent (graph : DependencyGraph) : Prop where
  wellFormed : graph.graph.WellFormed
  weight : ∀ index node, graph.txToNode.lookup index = some node →
    graph.graph.weights[node]? = some index
  known : ∀ index ∈ graph.graph.weights, index ∈ graph.txToNode

variable {graph graph' : DependencyGraph}

theorem Consistent.mem_iff (H : graph.Consistent) :
    index ∈ graph.graph.weights ↔ index ∈ graph.txToNode := by
  refine ⟨H.known index, fun h => ?_⟩
  obtain ⟨node, hnode⟩ := Finmap.mem_iff.mp h
  exact mem_of_getElem? (H.weight index node hnode)

theorem Consistent.addTransaction (H : graph.Consistent) (index : Nat) (tx : Transaction) :
    (graph.addTransaction index tx).Consistent where
  wellFormed src tgt hedge := by
    obtain ⟨hsrc, htgt⟩ := H.wellFormed src tgt hedge
    have hlen : (graph.addTransaction index tx).graph.weights.length =
        graph.graph.weights.length + 1 := length_append
    rw [hlen]
    exact ⟨Nat.lt_succ_of_lt hsrc, Nat.lt_succ_of_lt htgt⟩
  weight other node h := by
    change (graph.graph.weights ++ [index])[node]? = some other
    dsimp only [DependencyGraph.addTransaction, DiGraph.addNode] at h
    rw [HashMap.lookup_insert_ite] at h
    split_ifs at h with hoth
    · cases h
      rw [getElem?_concat_length, hoth]
    · have hwei := H.weight other node h
      rw [getElem?_append_left (List.getElem?_eq_some_iff.mp hwei).1, hwei]
  known other h := by
    refine Finmap.mem_insert.mpr ?_
    obtain h | h := mem_append.mp h
    · exact .inr (H.known other h)
    · exact .inl (mem_singleton.mp h)

theorem Consistent.addDependency (H : graph.Consistent)
    (h : graph.addDependency src tgt = .ok graph') : graph'.Consistent := by
  rw [DependencyGraph.addDependency] at h
  split at h
  next sourceNode targetNode hsrc htgt =>
    split at h
    · cases h
      refine ⟨fun s t hedge => ?_, H.weight, H.known⟩
      obtain hedge | hedge := mem_append.mp hedge
      · exact H.wellFormed s t hedge
      · cases mem_singleton.mp hedge
        exact ⟨(List.getElem?_eq_some_iff.mp (H.weight _ _ hsrc)).1,
          (List.getElem?_eq_some_iff.mp (H.weight _ _ htgt)).1⟩
    · cases h
  next =>
    cases h
    exact H

theorem consistent_new : DependencyGraph.new.Consistent where
  wellFormed _ _ h := absurd h not_mem_nil
  weight _ _ h := by cases h
  known _ h := absurd h not_mem_nil

theorem Reachable.consistent (H : graph.Reachable) : graph.Consistent := by
  induction H with
  | new => exact consistent_new
  | addTransaction index tx _ ih => exact ih.addTransaction index tx
  | addDependency src tgt _ h ih => exact ih.addDependency h

def Connected (self : DependencyGraph) (source target : Nat) : Prop :=
  ∃ sourceNode targetNode, self.txToNode.lookup source = some sourceNode ∧
    self.txToNode.lookup target = some targetNode ∧
    Relation.ReflTransGen self.graph.Edge sourceNode targetNode

def Independent (self : DependencyGraph) (a b : Nat) : Prop :=
  ¬self.Connected a b ∧ ¬self.Connected b a

instance : Std.Symm graph.Independent := ⟨fun _ _ h => ⟨h.2, h.1⟩⟩

theorem hasPath_iff [PathSearch] [LawfulPathSearch] :
    graph.hasPath a b = true ↔ graph.Connected a b := by
  unfold hasPath Connected
  cases graph.txToNode.lookup a with
  | none => simp
  | some src =>
    cases graph.txToNode.lookup b with
    | none => simp
    | some tgt => simp [LawfulPathSearch.hasPathConnecting_iff]

theorem apart_iff [PathSearch] [LawfulPathSearch] :
    graph.apart a b = true ↔ graph.Independent a b := by
  unfold apart Independent
  rw [← hasPath_iff, ← hasPath_iff]
  simp

structure Partition (graph : DependencyGraph) (groups : List (List Nat)) : Prop where
  nodup : groups.flatten.Nodup
  mem_iff : ∀ index, index ∈ groups.flatten ↔ index ∈ graph.txToNode
  ne_nil : ∀ group ∈ groups, group ≠ []

/-- Any two transactions of a group are independent. -/
def AllIndependent (self : DependencyGraph) (groups : List (List Nat)) : Prop :=
  ∀ group ∈ groups, group.Pairwise self.Independent

def IndependenceTransitive (self : DependencyGraph) : Prop :=
  ∀ x y z, x ∈ self.txToNode → y ∈ self.txToNode → z ∈ self.txToNode → y ≠ z →
    self.Independent x y → self.Independent x z → self.Independent y z

def ofNodes (self : DependencyGraph) (nodes : List Nat) : List Nat :=
  nodes.filterMap (self.graph.weights[·]?)

theorem Consistent.mem_ofNodes (H : graph.Consistent) (hnds : graph.graph.TopologicalOrder ns) :
    index ∈ graph.ofNodes ns ↔ index ∈ graph.txToNode := by
  rw [← H.mem_iff, ofNodes, mem_filterMap]
  constructor
  · rintro ⟨node, -, hnode⟩
    exact mem_of_getElem? hnode
  · intro hmem
    obtain ⟨node, hnode⟩ := mem_iff_getElem?.mp hmem
    refine ⟨node, hnds.perm.mem_iff.mpr (mem_range.mpr ?_), hnode⟩
    exact (List.getElem?_eq_some_iff.mp hnode).1

section
variable [PathSearch]

def groupsOf (self : DependencyGraph) (nodes : List Nat) : List (List Nat) :=
  Grouping.split self.apart (Grouping.pending ∅ (self.ofNodes nodes))

theorem findParallelGroups_of_toposort [Toposort]
    (h : toposort graph.graph = some ns) : graph.findParallelGroups = graph.groupsOf ns := by
  rw [findParallelGroups, topologicalOrder, h]
  exact groups_eq_split

theorem Consistent.partition (H : graph.Consistent)
    (hnds : graph.graph.TopologicalOrder ns) : graph.Partition (graph.groupsOf ns) where
  nodup := (flatten_split_perm).nodup_iff.mpr nodup_pending
  mem_iff index := by
    rw [groupsOf, (flatten_split_perm).mem_iff, mem_pending,
      H.mem_ofNodes hnds, and_iff_left (Finset.notMem_empty index)]
  ne_nil group hgrp := by
    obtain ⟨leader, rest, rfl, -⟩ := exists_leader hgrp
    exact cons_ne_nil _ _

theorem Consistent.allIndependent [LawfulPathSearch] (H : graph.Consistent)
    (hnds : graph.graph.TopologicalOrder ns) (htra : graph.IndependenceTransitive) :
    graph.AllIndependent (graph.groupsOf ns) := by
  intro group hgrp
  have hpar := H.partition hnds
  have hkno : ∀ index ∈ group, index ∈ graph.txToNode := fun index hidx =>
    (hpar.mem_iff index).mp (mem_flatten.mpr ⟨group, hgrp, hidx⟩)
  have hnd : group.Nodup := (nodup_flatten.mp hpar.nodup).1 group hgrp
  obtain ⟨leader, rest, rfl, hrest⟩ := exists_leader hgrp
  have hlea : ∀ x ∈ rest, graph.Independent leader x := fun x hx => apart_iff.mp (hrest x hx)
  refine pairwise_cons.mpr ⟨hlea, ?_⟩
  refine (nodup_cons.mp hnd).2.imp_of_mem fun hx hy hne => ?_
  exact htra leader _ _ (hkno _ mem_cons_self)
    (hkno _ (mem_cons_of_mem _ hx)) (hkno _ (mem_cons_of_mem _ hy)) hne
    (hlea _ hx) (hlea _ hy)

end

section
variable {j : Nat}

theorem Consistent.lookup_of_weight (H : graph.Consistent) (hnd : graph.graph.weights.Nodup)
    (h : graph.graph.weights[node]? = some i) : graph.txToNode.lookup i = some node := by
  obtain ⟨node', hnode'⟩ := Finmap.mem_iff.mp (H.known i (mem_of_getElem? h))
  have hlt := (List.getElem?_eq_some_iff.mp h).1
  have heq : node = node' := (getElem?_inj hlt hnd).mp (h.trans (H.weight i node' hnode').symm)
  rw [hnode', heq]

theorem Consistent.connected_iff (H : graph.Consistent) (hnd : graph.graph.weights.Nodup)
    (ha : graph.graph.weights[a]? = some i) (hb : graph.graph.weights[b]? = some j) :
    graph.Connected i j ↔ Relation.ReflTransGen graph.graph.Edge a b := by
  unfold Connected
  rw [H.lookup_of_weight hnd ha, H.lookup_of_weight hnd hb]
  simp

def txOf (self : DependencyGraph) (node : Nat) : Nat := self.graph.weights.getD node 0

theorem getElem?_weights (h : node < graph.graph.weights.length) :
    graph.graph.weights[node]? = some (graph.txOf node) := by
  rw [txOf, getD_eq_getElem?_getD, getElem?_eq_getElem h, Option.getD_some]

theorem groupsOf_eq_map [PathSearch] (hnd : graph.graph.weights.Nodup)
    (hnds : ns.Perm (range graph.graph.weights.length)) : graph.groupsOf ns =
      (split (fun a b => graph.apart (graph.txOf a) (graph.txOf b)) ns).map
        (map graph.txOf) := by
  have hlt : ∀ node ∈ ns, node < graph.graph.weights.length := fun node hnode =>
    mem_range.mp (hnds.mem_iff.mp hnode)
  have hmap : graph.ofNodes ns = ns.map graph.txOf := by
    rw [ofNodes, filterMap_congr fun node hnode => getElem?_weights (hlt node hnode),
      filterMap_eq_map']
  have hmap_ : (ns.map graph.txOf).Nodup := by
    refine List.Nodup.map_on ?_ (hnds.nodup_iff.mpr nodup_range)
    intro a ha b hb
    exact (getD_inj (hlt a ha) (hlt b hb) hnd).mp
  rw [groupsOf, hmap, pending_of_nodup hmap_ fun _ _ => Finset.notMem_empty _, split_map]

variable [PathSearch] [LawfulPathSearch]

theorem Consistent.apart_txOf_iff (H : graph.Consistent) (hnd : graph.graph.weights.Nodup)
    (ha : a < graph.graph.weights.length) (hb : b < graph.graph.weights.length) :
    graph.apart (graph.txOf a) (graph.txOf b) = true ↔
      a ≠ b ∧ ¬Relation.TransGen graph.graph.Edge a b ∧
        ¬Relation.TransGen graph.graph.Edge b a := by
  rw [apart_iff, Independent, H.connected_iff hnd (getElem?_weights ha) (getElem?_weights hb),
    H.connected_iff hnd (getElem?_weights hb) (getElem?_weights ha)]
  grind

theorem Consistent.exists_order_path (H : graph.Consistent) (hacy : graph.graph.Acyclic)
    (hnd : graph.graph.weights.Nodup) (hx : x < graph.graph.weights.length)
    (hy : y < graph.graph.weights.length) (hz : z < graph.graph.weights.length)
    (hxy : graph.apart (graph.txOf x) (graph.txOf y) = true)
    (hxz : graph.apart (graph.txOf x) (graph.txOf z) = true)
    (hyz : Relation.TransGen graph.graph.Edge y z) : ∃ ns, graph.graph.TopologicalOrder ns ∧
      ∃ group ∈ split (fun a b => graph.apart (graph.txOf a) (graph.txOf b)) ns,
        ∃ a ∈ group, ∃ b ∈ group, Relation.TransGen graph.graph.Edge a b := by
  classical
  let lt := Relation.TransGen graph.graph.Edge
  let nodeApart (a b : Nat) : Bool := decide (a ≠ b ∧ ¬lt a b ∧ ¬lt b a)
  have hap : ∀ a b, nodeApart a b = true ↔ a ≠ b ∧ ¬lt a b ∧ ¬lt b a := fun _ _ =>
    decide_eq_true_iff
  rw [H.apart_txOf_iff hnd hx hy, ← hap] at hxy
  rw [H.apart_txOf_iff hnd hx hz, ← hap] at hxz
  obtain ⟨base, hbase, hasc⟩ := Ancestors.exists_ascending H.wellFormed hacy
  have hmem : ∀ node < graph.graph.weights.length, node ∈ base := fun node hnode =>
    hbase.mem_iff.mpr (mem_range.mpr hnode)
  obtain ⟨ns, hperm, hnds, group, hgrp, hrel⟩ :=
    exists_related_in_group (fun _ _ _ => Relation.TransGen.trans) hap hacy
      (hbase.nodup_iff.mpr nodup_range) hasc (hmem x hx) (hmem y hy) (hmem z hz)
      hxy hxz hyz
  have hrng := hperm.trans hbase
  refine ⟨ns, ⟨hrng, hnds.imp fun h hedge => h (.single hedge)⟩, group, ?_, hrel⟩
  convert hgrp using 1
  refine split_congr fun a ha b hb => Bool.eq_iff_iff.mpr ?_
  have hlt : ∀ node ∈ ns, node < graph.graph.weights.length := fun node hnode =>
    mem_range.mp (hrng.mem_iff.mp hnode)
  rw [H.apart_txOf_iff hnd (hlt a ha) (hlt b hb), hap]

theorem Consistent.exists_order_connected (H : graph.Consistent) (hacy : graph.graph.Acyclic)
    (hnd : graph.graph.weights.Nodup) (hx : x ∈ graph.txToNode)
    (hyz : y ≠ z) (hxy : graph.Independent x y) (hxz : graph.Independent x z)
    (hpath : graph.Connected y z) : ∃ ns, graph.graph.TopologicalOrder ns ∧
      ∃ group ∈ graph.groupsOf ns, ∃ i ∈ group, ∃ j ∈ group, i ≠ j ∧ graph.Connected i j := by
  have hnode : ∀ {index node}, graph.txToNode.lookup index = some node →
      node < graph.graph.weights.length ∧ graph.txOf node = index := by
    intro index node hnode
    have hwei := H.weight index node hnode
    have hlt := (List.getElem?_eq_some_iff.mp hwei).1
    exact ⟨hlt, Option.some.inj ((getElem?_weights hlt).symm.trans hwei)⟩
  obtain ⟨xNode, hxNo⟩ := Finmap.mem_iff.mp hx
  obtain ⟨yNode, zNode, hyNo, hzNo, hpath⟩ := hpath
  obtain ⟨hxlt, rfl⟩ := hnode hxNo
  obtain ⟨hylt, rfl⟩ := hnode hyNo
  obtain ⟨hzlt, rfl⟩ := hnode hzNo
  have hpath : Relation.TransGen graph.graph.Edge yNode zNode :=
    (Relation.reflTransGen_iff_eq_or_transGen.mp hpath).resolve_left fun heq =>
      hyz (congrArg graph.txOf heq.symm)
  obtain ⟨ns, hnds, group, hgrp, a, ha, b, hb, hab⟩ :=
    H.exists_order_path hacy hnd hxlt hylt hzlt (apart_iff.mpr hxy) (apart_iff.mpr hxz) hpath
  have hlt : ∀ node ∈ group, node < graph.graph.weights.length := fun node hnode =>
    mem_range.mp (hnds.perm.mem_iff.mp (mem_of_mem_split hgrp hnode))
  refine ⟨ns, hnds, group.map graph.txOf, ?_, _, mem_map_of_mem ha, _,
    mem_map_of_mem hb, fun heq => ?_, ?_⟩
  · rw [groupsOf_eq_map hnd hnds.perm]
    exact mem_map_of_mem hgrp
  · cases (getD_inj (hlt a ha) (hlt b hb) hnd).mp heq
    exact hacy a hab
  · rw [H.connected_iff hnd (getElem?_weights (hlt a ha)) (getElem?_weights (hlt b hb))]
    exact hab.to_reflTransGen

end

/-- The groups are a partition. They are free of paths, for every correct `toposort`, if
independence is transitive, and only then if no transaction was added twice. -/
theorem findParallelGroups_correct_iff [PathSearch] [LawfulPathSearch] (graph : DependencyGraph)
    (hrea : graph.Reachable) (hacy : graph.graph.Acyclic) :
    (∀ search : Toposort, @LawfulToposort search → graph.Partition graph.findParallelGroups) ∧
    (graph.IndependenceTransitive → ∀ search : Toposort, @LawfulToposort search →
      graph.AllIndependent graph.findParallelGroups) ∧
    (graph.graph.weights.Nodup → (∀ search : Toposort, @LawfulToposort search →
      graph.AllIndependent graph.findParallelGroups) → graph.IndependenceTransitive) := by
  have H := hrea.consistent
  have hord : ∀ search : Toposort, @LawfulToposort search → ∃ ns,
      graph.graph.TopologicalOrder ns ∧ graph.findParallelGroups = graph.groupsOf ns := by
    intro search hlaw
    obtain ⟨ns, hsea, hnds⟩ := hlaw.toposort_of_acyclic _ H.wellFormed hacy
    exact ⟨ns, hnds, findParallelGroups_of_toposort hsea⟩
  refine ⟨fun search hlaw => ?_, fun htra search hlaw => ?_, fun hnd hall => ?_⟩
  · obtain ⟨ns, hnds, hgro⟩ := hord search hlaw
    rw [hgro]
    exact H.partition hnds
  · obtain ⟨ns, hnds, hgro⟩ := hord search hlaw
    rw [hgro]
    exact H.allIndependent hnds htra
  · have hnone : ∀ x y z, x ∈ graph.txToNode → y ≠ z → graph.Independent x y →
        graph.Independent x z → ¬graph.Connected y z := by
      intro x y z hx hyz hxy hxz hpath
      obtain ⟨ns, hnds, group, hgrp, i, hi, j, hj, hij, hcon⟩ :=
        H.exists_order_connected hacy hnd hx hyz hxy hxz hpath
      obtain ⟨search, hlaw, hsea⟩ := Ancestors.exists_toposort hnds
      have hind := hall search hlaw
      rw [findParallelGroups_of_toposort hsea] at hind
      exact ((hind group hgrp).forall hi hj hij).1 hcon
    intro x y z hx _ _ hyz hxy hxz
    exact ⟨hnone x y z hx hyz hxy hxz, hnone x z y hx hyz.symm hxz hxy⟩

namespace Sample

def tx : Transaction where
  hash := H256.zero
  fromAddress := Address.zero
  toAddress := none
  nonce := 0

def four : DependencyGraph :=
  (((new.addTransaction 0 tx).addTransaction 1 tx).addTransaction 2 tx).addTransaction 3 tx

def twoChains : DependencyGraph :=
  { four with
    graph := (four.graph.addEdge 0 1).addEdge 2 3
    dependencies := (four.dependencies.insert 1 (insert 0 ∅)).insert 3 (insert 2 ∅) }

theorem twoChains_reachable : twoChains.Reachable := by
  have hfour : four.Reachable :=
    (((Reachable.new.addTransaction 0 tx).addTransaction 1 tx).addTransaction 2 tx).addTransaction
      3 tx
  exact (hfour.addDependency 0 1 rfl).addDependency 2 3 rfl

theorem edge_iff : twoChains.graph.Edge a b ↔ a = 0 ∧ b = 1 ∨ a = 2 ∧ b = 3 := by
  change (a, b) ∈ [(0, 1), (2, 3)] ↔ _
  simp

theorem twoChains_acyclic : twoChains.graph.Acyclic := by
  refine DiGraph.acyclic_of_lt fun src tgt hedge => ?_
  obtain ⟨rfl, rfl⟩ | ⟨rfl, rfl⟩ := edge_iff.mp hedge
  · decide
  · decide

theorem twoChains_connected_iff (ha : a < 4) (hb : b < 4) :
    twoChains.Connected a b ↔ a / 2 = b / 2 ∧ a ≤ b := by
  have hwei : ∀ node < 4, twoChains.graph.weights[node]? = some node := by decide
  rw [twoChains_reachable.consistent.connected_iff (by decide) (hwei a ha) (hwei b hb)]
  constructor
  · intro hpath
    induction hpath with
    | refl => exact ⟨rfl, le_rfl⟩
    | tail _ hedge ih =>
      have hedge := edge_iff.mp hedge
      omega
  · rintro ⟨hcha, hle⟩
    obtain rfl | hlt := hle.eq_or_lt
    · exact .refl
    · exact .single (edge_iff.mpr (by omega))

open scoped Ancestors in
theorem twoChains_apart_iff (ha : a < 4) (hb : b < 4) :
    twoChains.apart a b = true ↔ a / 2 ≠ b / 2 := by
  rw [apart_iff, Independent, twoChains_connected_iff ha hb, twoChains_connected_iff hb ha]
  omega

/-- The order that `petgraph` finds. -/
theorem twoChains_ordered : twoChains.graph.TopologicalOrder [2, 3, 0, 1] where
  perm := by decide
  forward := by
    refine List.Pairwise.imp (fun {a b} hlt hedge => ?_)
      (by decide : [2, 3, 0, 1].Pairwise fun a b => b / 2 < a / 2 ∨ a < b)
    have hedge := edge_iff.mp hedge
    omega

end Sample

open Sample
open scoped Ancestors

theorem findParallelGroups_correct_chains : twoChains.Partition twoChains.findParallelGroups :=
  (findParallelGroups_correct_iff twoChains twoChains_reachable twoChains_acyclic).1 inferInstance
    inferInstance

/-- Transaction 1 joins the group of 0, as it is compared with 2 only, the first of the group. -/
theorem findParallelGroups_chains : ∃ search : Toposort, @LawfulToposort search ∧
    @findParallelGroups search _ twoChains = [[2, 0, 1], [3]] ∧ twoChains.Connected 0 1 := by
  obtain ⟨search, hlaw, hsea⟩ := Ancestors.exists_toposort twoChains_ordered
  refine ⟨search, hlaw, ?_, (twoChains_connected_iff (by decide) (by decide)).mpr (by decide)⟩
  have hap : ∀ a < 4, ∀ b < 4, twoChains.apart a b = decide (a / 2 ≠ b / 2) := by
    intro a ha b hb
    rw [Bool.eq_iff_iff, twoChains_apart_iff ha hb, decide_eq_true_iff]
  have hpnd : pending ∅ (twoChains.ofNodes [2, 3, 0, 1]) = [2, 3, 0, 1] := by decide
  have hlt : ∀ a ∈ [2, 3, 0, 1], a < 4 := by decide
  rw [findParallelGroups_of_toposort hsea, groupsOf, hpnd,
    split_congr fun a ha b hb => hap a (hlt a ha) b (hlt b hb)]
  simp [split]

end DependencyGraph

end EthereumRust.Parallel
