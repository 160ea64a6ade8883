import EthereumRust.Lib.Ancestry
import Mathlib.Data.List.Sort

/-!
# Directed graphs and topological sorting

A graph as `petgraph` keeps it: nodes are numbered in the order in which they were added and carry a
weight. `toposort` and `has_path_connecting` are parameters: they are those of the graph crate. The
first is assumed to order the nodes of every acyclic graph (`LawfulToposort`), the second to find
every path (`LawfulPathSearch`).
-/

structure DiGraph (W : Type) where
  weights : List W
  edges : List (Nat × Nat)

namespace DiGraph

def new : DiGraph W := ⟨[], []⟩

def addNode (self : DiGraph W) (weight : W) : DiGraph W × Nat :=
  ({ self with weights := self.weights ++ [weight] }, self.weights.length)

def addEdge (self : DiGraph W) (source target : Nat) : DiGraph W :=
  { self with edges := self.edges ++ [(source, target)] }

def Edge (self : DiGraph W) (source target : Nat) : Prop := (source, target) ∈ self.edges

def WellFormed (self : DiGraph W) : Prop :=
  ∀ source target, self.Edge source target →
    source < self.weights.length ∧ target < self.weights.length

def Acyclic (self : DiGraph W) : Prop := ∀ node, ¬Relation.TransGen self.Edge node node

theorem acyclic_of_lt {s : DiGraph W} (h : ∀ src tgt, s.Edge src tgt → src < tgt) : s.Acyclic := by
  exact Ancestry.acyclic_of_rank OrderDual.toDual h

structure TopologicalOrder (graph : DiGraph W) (order : List Nat) : Prop where
  perm : order.Perm (List.range graph.weights.length)
  forward : order.Pairwise fun a b => ¬graph.Edge b a

end DiGraph

class Toposort where
  toposort : {W : Type} → DiGraph W → Option (List Nat)

export Toposort (toposort)

/-- `toposort` finds a topological order of every graph without a cycle. -/
class LawfulToposort [Toposort] : Prop where
  toposort_of_acyclic : ∀ {W : Type} (graph : DiGraph W), graph.WellFormed → graph.Acyclic →
    ∃ order, toposort graph = some order ∧ graph.TopologicalOrder order

class PathSearch where
  hasPathConnecting : {W : Type} → DiGraph W → Nat → Nat → Bool

export PathSearch (hasPathConnecting)

/-- `has_path_connecting` decides reachability. -/
class LawfulPathSearch [PathSearch] : Prop where
  hasPathConnecting_iff : ∀ {W : Type} (graph : DiGraph W) (source target : Nat),
    hasPathConnecting graph source target = true ↔ Relation.ReflTransGen graph.Edge source target

namespace Ancestors

open Classical in
noncomputable scoped instance : PathSearch where
  hasPathConnecting graph source target :=
    decide (Relation.ReflTransGen graph.Edge source target)

scoped instance : LawfulPathSearch where
  hasPathConnecting_iff _ _ _ := by
    classical
    exact decide_eq_true_iff

open Classical in
noncomputable def ancestors {W : Type} (graph : DiGraph W) (node : Nat) : Nat :=
  {other ∈ Finset.range graph.weights.length | Relation.TransGen graph.Edge other node}.card

noncomputable scoped instance : Toposort where
  toposort graph := some <|
    (List.range graph.weights.length).insertionSort fun a b => ancestors graph a ≤ ancestors graph b

theorem ancestors_lt {g : DiGraph W} (hwf : g.WellFormed)
    (hacy : g.Acyclic) (h : g.Edge source tgt) :
    ancestors g source < ancestors g tgt := by
  classical
  have hsrc : source ∈ Finset.range g.weights.length := Finset.mem_range.mpr (hwf _ _ h).1
  refine Finset.card_lt_card
    ((Finset.ssubset_iff_of_subset fun other hoth => ?_).mpr ⟨source, ?_, ?_⟩)
  · obtain ⟨hrng, hpath⟩ := Finset.mem_filter.mp hoth
    exact Finset.mem_filter.mpr ⟨hrng, hpath.tail h⟩
  · exact Finset.mem_filter.mpr ⟨hsrc, .single h⟩
  · exact fun hmem => hacy source (Finset.mem_filter.mp hmem).2

scoped instance : LawfulToposort where
  toposort_of_acyclic graph hwf hacyclic := by
    refine ⟨_, rfl, List.perm_insertionSort _ _, ?_⟩
    refine (List.pairwise_insertionSort _ _).imp fun hle hedge => ?_
    exact Nat.not_lt_of_le hle (ancestors_lt hwf hacyclic hedge)

theorem exists_ascending {g : DiGraph W} (hwf : g.WellFormed)
    (hacy : g.Acyclic) : ∃ nodes : List Nat, nodes.Perm (List.range g.weights.length) ∧
      nodes.Pairwise fun a b => ¬Relation.TransGen g.Edge b a := by
  have hpath : ∀ a b, Relation.TransGen g.Edge a b → ancestors g a < ancestors g b := by
    intro a b h
    induction h with
    | single hedge => exact ancestors_lt hwf hacy hedge
    | tail _ hedge ih => exact ih.trans (ancestors_lt hwf hacy hedge)
  refine ⟨_, List.perm_insertionSort (fun a b => ancestors g a ≤ ancestors g b) _, ?_⟩
  refine (List.pairwise_insertionSort _ _).imp fun hle h => ?_
  exact Nat.not_lt_of_le hle (hpath _ _ h)

theorem exists_toposort {g : DiGraph W} (h : g.TopologicalOrder nodes) :
    ∃ search : Toposort, @LawfulToposort search ∧ @toposort search W g = some nodes := by
  have hlaw : LawfulToposort := inferInstance
  -- an order of the nodes does not depend on the weights
  let search : Toposort := ⟨fun other =>
    if other.weights.length = g.weights.length ∧ other.edges = g.edges then some nodes
    else toposort other⟩
  refine ⟨search, ⟨fun other hwf hacy => ?_⟩, if_pos ⟨rfl, rfl⟩⟩
  by_cases hsame : other.weights.length = g.weights.length ∧ other.edges = g.edges
  · refine ⟨nodes, if_pos hsame, ⟨hsame.1 ▸ h.perm, h.forward.imp fun hedge => ?_⟩⟩
    rw [DiGraph.Edge, hsame.2]
    exact hedge
  · obtain ⟨order, hord, htop⟩ := hlaw.toposort_of_acyclic other hwf hacy
    exact ⟨order, (if_neg hsame).trans hord, htop⟩

end Ancestors
