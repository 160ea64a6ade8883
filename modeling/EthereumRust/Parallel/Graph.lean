import EthereumRust.Types
import EthereumRust.Lib.Toposort

/-!
# The dependency graph (`crates/parallel-execution`)

Transactions are numbered by their position in the batch. A transaction depends on an earlier one
with the same sender or, as far as the cache of the conflict detector says so, with the same
recipient. All edges of the graph lead from earlier to later transactions, so it has no cycle.
-/

namespace EthereumRust.Parallel

open Rust Method List Finset

inductive ParallelExecutionError where
  | executionFailed (message : String)
  | conflictDetected (message : String)
  | schedulingError (message : String)
  | stateError (message : String)
  | validationFailed (message : String)
  deriving DecidableEq, Repr

/-- What the crate reads of a transaction. It uses `from`, `to` and `nonce` as fields; the enum of
`crates/core` has methods of these names. -/
structure Transaction where
  hash : H256
  fromAddress : Address
  toAddress : Option Address
  nonce : U256
  deriving DecidableEq

structure ConflictDetector where
  conflictCache : HashMap (H256 × H256) Bool

def ConflictDetector.new : ConflictDetector := ⟨∅⟩

def mayInteract (_ _ : Address) : Bool := false

def analyzeConflict (tx1 tx2 : Transaction) : Bool :=
  if tx1.fromAddress = tx2.fromAddress then true
  else
    match tx1.toAddress, tx2.toAddress with
    | some to1, some to2 => if to1 = to2 then true else mayInteract to1 to2
    | _, _ => false

def checkConflict (tx1 tx2 : Transaction) :
    Method ConflictDetector ParallelExecutionError Bool := do
  let key := (tx1.hash, tx2.hash)
  match ← read (·.conflictCache.lookup key) with
  | some result => return result
  | none =>
    let hasConflict := analyzeConflict tx1 tx2
    update fun self => { self with conflictCache := self.conflictCache.insert key hasConflict }
    return hasConflict

def hasDependency (tx1 tx2 : Transaction) : Method ConflictDetector ParallelExecutionError Bool :=
  if tx1.fromAddress = tx2.fromAddress then return true
  else
    match tx1.toAddress, tx2.toAddress with
    | some to1, some to2 => if to1 = to2 then checkConflict tx1 tx2 else return false
    | _, _ => return false

structure DependencyGraph where
  graph : DiGraph Nat
  txToNode : HashMap Nat Nat
  dependencies : HashMap Nat (Finset Nat)

namespace DependencyGraph

def new : DependencyGraph := ⟨.new, ∅, ∅⟩

def addTransaction (self : DependencyGraph) (index : Nat) (_ : Transaction) : DependencyGraph :=
  let (graph, node) := self.graph.addNode index
  { graph
    txToNode := self.txToNode.insert index node
    dependencies := self.dependencies.insert index ∅ }

def addDependency (self : DependencyGraph) (source target : Nat) : Checked DependencyGraph :=
  match self.txToNode.lookup source, self.txToNode.lookup target with
  | some sourceNode, some targetNode =>
    match self.dependencies.lookup target with
    | some deps => .ok { self with
        graph := self.graph.addEdge sourceNode targetNode
        dependencies := self.dependencies.insert target (insert source deps) }
    | none => .error .unwrap
  | _, _ => .ok self

def getDependencies (self : DependencyGraph) (index : Nat) : Finset Nat :=
  (self.dependencies.lookup index).getD ∅

end DependencyGraph

def addDependencies (transactions : List Transaction) (tx : Transaction) (i : Nat)
    (graph : DependencyGraph) : Method ConflictDetector ParallelExecutionError DependencyGraph :=
  (transactions.take i).zipIdx.foldlM (fun graph other => do
    if ← hasDependency other.1 tx then graph.addDependency other.2 i else return graph) graph

def buildDependencyGraph (transactions : List Transaction) :
    Method ConflictDetector ParallelExecutionError DependencyGraph :=
  transactions.zipIdx.foldlM
    (fun graph tx => addDependencies transactions tx.1 tx.2 (graph.addTransaction tx.2 tx.1)) .new

structure DependencyGraph.Built (graph : DependencyGraph) (n : Nat) : Prop where
  weights : graph.graph.weights = List.range n
  nodes : ∀ i, graph.txToNode.lookup i = if i < n then some i else none
  known : ∀ i < n, i ∈ graph.dependencies
  edges : ∀ j i, graph.graph.Edge j i ↔ j ∈ graph.getDependencies i
  lt : ∀ j i, j ∈ graph.getDependencies i → j < i ∧ i < n

namespace DependencyGraph

variable {graph : DependencyGraph}

theorem built_new : DependencyGraph.new.Built 0 where
  weights := rfl
  nodes _ := rfl
  known i hi := absurd hi (Nat.not_lt_zero i)
  edges j _ := iff_of_false not_mem_nil (notMem_empty j)
  lt j _ h := absurd h (notMem_empty j)

theorem Built.getDependencies_addTransaction (H : graph.Built n) :
    (graph.addTransaction n tx).getDependencies i = graph.getDependencies i := by
  refine (HashMap.getD_insert ..).trans ?_
  split_ifs with hi
  · rw [hi, eq_comm, eq_empty_iff_forall_notMem]
    exact fun j hj => lt_irrefl n (H.lt j n hj).2
  · rfl

theorem Built.addTransaction (H : graph.Built n) (tx : Transaction) :
    (graph.addTransaction n tx).Built (n + 1) := by
  have hnode : graph.graph.weights.length = n := by rw [H.weights, length_range]
  refine ⟨?_, fun i => ?_, fun i hi => ?_, fun j i => ?_, fun j i hj => ?_⟩
  · rw [range_succ, ← H.weights]
    rfl
  · rw [DependencyGraph.addTransaction, DiGraph.addNode, hnode]
    rw [HashMap.lookup_insert_ite, H.nodes]
    split_ifs with hi hlt hlt'
    · rw [hi]
    · omega
    · rfl
    · omega
    · omega
    · rfl
  · refine Finmap.mem_insert.mpr ?_
    rcases Nat.lt_succ_iff_lt_or_eq.mp hi with hi | hi
    · exact .inr (H.known i hi)
    · exact .inl hi
  · rw [H.getDependencies_addTransaction]
    exact H.edges j i
  · rw [H.getDependencies_addTransaction] at hj
    exact ⟨(H.lt j i hj).1, Nat.lt_succ_of_lt (H.lt j i hj).2⟩

theorem Built.addDependency (H : graph.Built n) (hj : j < i) (hi : i < n) :
    ∃ graph', graph.addDependency j i = .ok graph' ∧ graph'.Built n ∧
      ∀ a b, a ∈ graph'.getDependencies b ↔ a ∈ graph.getDependencies b ∨ a = j ∧ b = i := by
  obtain ⟨deps, hdeps⟩ := Finmap.mem_iff.mp (H.known i hi)
  have hget : graph.getDependencies i = deps := by rw [getDependencies, hdeps, Option.getD_some]
  let graph' : DependencyGraph := { graph with
    graph := graph.graph.addEdge j i
    dependencies := graph.dependencies.insert i (insert j deps) }
  have hmem : ∀ a b,
      a ∈ graph'.getDependencies b ↔ a ∈ graph.getDependencies b ∨ a = j ∧ b = i := by
    intro a b
    rw [getDependencies, HashMap.getD_insert]
    split_ifs with hb
    · rw [hb, hget, mem_insert, or_comm, and_iff_left rfl]
    · rw [or_iff_left fun h => hb h.2]
      rfl
  refine ⟨graph', ?_, ⟨H.weights, H.nodes, fun b hb => ?_, fun a b => ?_, fun a b hab => ?_⟩, hmem⟩
  · rw [DependencyGraph.addDependency, H.nodes, H.nodes, if_pos (hj.trans hi), if_pos hi, hdeps]
  · exact Finmap.mem_insert.mpr (.inr (H.known b hb))
  · rw [hmem, ← H.edges, DiGraph.Edge]
    change (a, b) ∈ graph.graph.edges ++ [(j, i)] ↔ _
    rw [mem_append, List.mem_singleton, Prod.mk.injEq]
    rfl
  · rcases (hmem a b).mp hab with hab | ⟨rfl, rfl⟩
    · exact H.lt a b hab
    · exact ⟨hj, hi⟩

theorem Built.acyclic (H : graph.Built n) : graph.graph.WellFormed ∧ graph.graph.Acyclic := by
  have hlt : ∀ j i, graph.graph.Edge j i → j < i ∧ i < n := fun j i hedge =>
    H.lt j i ((H.edges j i).mp hedge)
  refine ⟨fun j i hedge => ?_, DiGraph.acyclic_of_lt fun j i hedge => (hlt j i hedge).1⟩
  obtain ⟨hji, hin⟩ := hlt j i hedge
  rw [H.weights, length_range]
  exact ⟨hji.trans hin, hin⟩

end DependencyGraph

def Related (tx1 tx2 : Transaction) : Prop :=
  tx1.fromAddress = tx2.fromAddress ∨
    ∃ recipient, tx1.toAddress = some recipient ∧ tx2.toAddress = some recipient

def ConflictDetector.Trusting (detector : ConflictDetector) : Prop :=
  ∀ key result, detector.conflictCache.lookup key = some result → result = true

theorem ConflictDetector.trusting_new : ConflictDetector.new.Trusting := by
  intro key res h
  cases h

theorem hasDependency_sat :
    Sat (hasDependency tx1 tx2) detector
      (fun b detector' => detector.Trusting → detector'.Trusting ∧ (b = true ↔ Related tx1 tx2))
      (fun _ _ => False) (fun _ => False) := by
  rw [hasDependency]
  split_ifs with hfrom
  · exact fun htru => ⟨htru, iff_of_true rfl (.inl hfrom)⟩
  · split
    next to1 to2 hto1 hto2 =>
      split_ifs with hto
      · have hrel : Related tx1 tx2 := .inr ⟨to1, hto1, hto ▸ hto2⟩
        rw [checkConflict, sat_bind, sat_read]
        split
        next res hres =>
          intro htru
          exact ⟨htru, iff_of_true (htru _ _ hres) hrel⟩
        next =>
          have hcfl : analyzeConflict tx1 tx2 = true := by
            rw [analyzeConflict, if_neg hfrom, hto1, hto2]
            exact if_pos hto
          intro htru
          refine ⟨fun key res hget => ?_, iff_of_true hcfl hrel⟩
          rw [HashMap.lookup_insert_ite] at hget
          split_ifs at hget
          · exact (Option.some.inj hget).symm.trans hcfl
          · exact htru key res hget
      · refine fun htru => ⟨htru, iff_of_false Bool.false_ne_true ?_⟩
        rintro (h | ⟨recipient, h1, h2⟩)
        · exact hfrom h
        · rw [hto1] at h1
          rw [hto2] at h2
          exact hto (Option.some.inj (h1.trans h2.symm))
    next hnone =>
      refine fun htru => ⟨htru, iff_of_false Bool.false_ne_true ?_⟩
      rintro (h | ⟨recipient, h1, h2⟩)
      · exact hfrom h
      · exact hnone recipient recipient h1 h2

theorem zipIdx_split {α : Type} {l : List α} {ys zs : List (α × Nat)} {x : α × Nat}
    (h : l.zipIdx = ys ++ x :: zs) : x.2 = ys.length ∧ l[ys.length]? = some x.1 := by
  have hget : l.zipIdx[ys.length]? = some x := by
    rw [h, getElem?_append_right (le_refl _), Nat.sub_self]
    rfl
  rw [getElem?_zipIdx, zero_add, Option.map_eq_some_iff] at hget
  obtain ⟨a, ha, rfl⟩ := hget
  exact ⟨rfl, ha⟩

def RelatedAt (transactions : List Transaction) (j i : Nat) : Prop :=
  ∃ tx1 ∈ transactions[j]?, ∃ tx2 ∈ transactions[i]?, Related tx1 tx2

/-- The graph and the detector when all pairs before `i`, and the first `k` transactions with `i`,
have been compared. With a trusting detector the dependencies are the related pairs. -/
structure Progress (transactions : List Transaction) (initial : ConflictDetector) (n i k : Nat)
    (graph : DependencyGraph) (detector : ConflictDetector) : Prop where
  built : graph.Built n
  trusting : initial.Trusting → detector.Trusting
  complete : initial.Trusting → ∀ a b, a ∈ graph.getDependencies b ↔
    a < b ∧ (b < i ∨ b = i ∧ a < k) ∧ RelatedAt transactions a b

section
variable {i : Nat}

/-- The step of the outer loop: one transaction against all earlier ones. -/
theorem addDependencies_sat (hi : txs[i]? = some tx)
    (H : Progress txs initial (i + 1) i 0 graph detector) :
    Sat (addDependencies txs tx i graph) detector
      (fun graph detector => Progress txs initial (i + 1) (i + 1) 0 graph detector)
      (fun _ _ => False) (fun _ => False) := by
  have hlt : i < txs.length := (List.getElem?_eq_some_iff.mp hi).1
  have hall : ((txs.take i).zipIdx).length = i := by
    rw [length_zipIdx, length_take, Nat.min_eq_left (le_of_lt hlt)]
  have hloop : Sat (addDependencies txs tx i graph) detector
      (fun graph detector => Progress txs initial (i + 1) i
        ((txs.take i).zipIdx).length graph detector)
      (fun _ _ => False) (fun _ => False) := by
    refine sat_foldlM (I := fun ys => Progress txs initial (i + 1) i ys.length)
      (fun ys other zs hspl graph detector H => ?_) H
    obtain ⟨hidx, hoth⟩ := zipIdx_split hspl
    have hj : ys.length < i := by
      have hlen := (List.getElem?_eq_some_iff.mp hoth).1
      rw [length_take] at hlen
      omega
    rw [getElem?_take_of_lt hj] at hoth
    have hrel : Related other.1 tx ↔ RelatedAt txs ys.length i := by
      constructor
      · exact fun h => ⟨_, hoth, _, hi, h⟩
      · rintro ⟨tx1, h1, tx2, h2, h⟩
        obtain rfl := Option.some.inj (h1.symm.trans hoth)
        obtain rfl := Option.some.inj (h2.symm.trans hi)
        exact h
    rw [sat_bind]
    refine (hasDependency_sat).mono (fun b detector' hb => ?_) (fun _ _ => id) (fun _ => id)
    rw [length_append, hidx]
    split_ifs with htrue
    · obtain ⟨graph', hadd, hbui, hmem⟩ := H.built.addDependency hj (Nat.lt_succ_self i)
      rw [hadd]
      refine ⟨hbui, fun ht => (hb (H.trusting ht)).1, fun ht a b => ?_⟩
      have hpair := hrel.mp ((hb (H.trusting ht)).2.mp htrue)
      rw [hmem, H.complete ht]
      constructor
      · rintro (⟨hab, hb, h⟩ | ⟨rfl, rfl⟩)
        · exact ⟨hab, by omega, h⟩
        · exact ⟨hj, .inr ⟨rfl, Nat.lt_succ_self _⟩, hpair⟩
      · rintro ⟨hab, hb | ⟨rfl, ha⟩, h⟩
        · exact .inl ⟨hab, .inl hb, h⟩
        · rcases Nat.lt_succ_iff_lt_or_eq.mp ha with ha | rfl
          · exact .inl ⟨hab, .inr ⟨rfl, ha⟩, h⟩
          · exact .inr ⟨rfl, rfl⟩
    · refine ⟨H.built, fun ht => (hb (H.trusting ht)).1, fun ht a b => ?_⟩
      have hpair := mt (fun h => (hb (H.trusting ht)).2.mpr (hrel.mpr h)) htrue
      rw [H.complete ht]
      refine and_congr_right fun hab => and_congr_left fun h => ?_
      constructor
      · omega
      · rintro (hb | ⟨rfl, ha⟩)
        · exact .inl hb
        · rcases Nat.lt_succ_iff_lt_or_eq.mp ha with ha | rfl
          · exact .inr ⟨rfl, ha⟩
          · exact absurd h hpair
  refine hloop.mono (fun graph detector H => ?_) (fun _ _ => id) (fun _ => id)
  refine ⟨H.built, H.trusting, fun ht a b => (H.complete ht a b).trans ?_⟩
  refine and_congr_right fun hab => and_congr_left fun _ => ?_
  omega

theorem buildDependencyGraph_sat :
    Sat (buildDependencyGraph txs) detector
      (fun graph detector' => graph.Built txs.length ∧
        (detector.Trusting → detector'.Trusting ∧ ∀ j i, j ∈ graph.getDependencies i ↔
          j < i ∧ RelatedAt txs j i))
      (fun _ _ => False) (fun _ => False) := by
  have hloop : Sat (buildDependencyGraph txs) detector
      (fun graph detector' => Progress txs detector txs.zipIdx.length
        txs.zipIdx.length 0 graph detector') (fun _ _ => False) (fun _ => False) := by
    refine sat_foldlM (I := fun ys => Progress txs detector ys.length ys.length 0)
      (fun ys tx zs hspl graph detector' H => ?_) ?_
    · obtain ⟨hidx, htx⟩ := zipIdx_split hspl
      rw [hidx, length_append]
      refine addDependencies_sat htx ⟨H.built.addTransaction tx.1, H.trusting, fun ht a b => ?_⟩
      rw [H.built.getDependencies_addTransaction]
      exact H.complete ht a b
    · refine ⟨DependencyGraph.built_new, id, fun _ a b => iff_of_false (notMem_empty a) ?_⟩
      rintro ⟨hab, hb | ⟨-, ha⟩, -⟩
      · exact Nat.not_lt_zero b hb
      · exact Nat.not_lt_zero a ha
  rw [length_zipIdx] at hloop
  refine hloop.mono (fun graph detector' H => ?_) (fun _ _ => id) (fun _ => id)
  refine ⟨H.built, fun ht => ⟨H.trusting ht, fun j i => (H.complete ht j i).trans ?_⟩⟩
  refine and_congr_right fun hji => and_iff_right_of_imp fun hrel => ?_
  obtain ⟨-, -, tx, htx, -⟩ := hrel
  exact .inl (List.getElem?_eq_some_iff.mp htx).1

theorem exists_dependencyGraph (txs : List Transaction) (detector : ConflictDetector) :
    ∃ graph detector', buildDependencyGraph txs detector = .ok graph detector' ∧
      graph.Built txs.length ∧
      (detector.Trusting → detector'.Trusting ∧ ∀ j i, j ∈ graph.getDependencies i ↔
        j < i ∧ RelatedAt txs j i) :=
  (buildDependencyGraph_sat).exists_ok

end

end EthereumRust.Parallel
