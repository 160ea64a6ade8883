import EthereumRust.Lib.Ancestry

/-!
# Collecting what can be reached

A loop takes a node from a stack, keeps it and pushes the nodes that come next, also those it has
kept before. If the graph below the stack has no infinite path, the loop is left, and it has then
kept what can be reached from the stack.
-/

namespace Worklist
open List

section
variable {K : Type} [DecidableEq K] (next : K → List K)

def Edge (a b : K) : Prop := b ∈ next a

def turn : List K × Finset K → Loop.Turn (List K × Finset K) (Finset K)
  | ([], keep) => .done keep
  | (k :: stack, keep) => .next ((next k).reverse ++ stack, insert k keep)

def Ahead (s : List K × Finset K) (k : K) : Prop :=
  k ∈ s.2 ∨ ∃ q ∈ s.1, Relation.ReflTransGen (Edge next) q k

end

variable [DecidableEq K] {next : K → List K}

theorem ahead_turn (h : turn next s = .next s') : Ahead next s' k ↔ Ahead next s k := by
  obtain ⟨_ | ⟨q, stack⟩, keep⟩ := s
  · cases h
  cases h
  -- reachable from the node taken are the node and what the nodes pushed reach
  have hq : Relation.ReflTransGen (Edge next) q k ↔
      k = q ∨ ∃ b ∈ next q, Relation.ReflTransGen (Edge next) b k := by
    rw [Relation.ReflTransGen.cases_head_iff]
    exact or_congr eq_comm Iff.rfl
  simp only [Ahead, Finset.mem_insert, mem_append, mem_reverse, mem_cons,
    or_and_right, exists_or, exists_eq_left, hq, or_assoc, or_left_comm]

theorem mem_of_leaves (h : Loop.Leaves (turn next) (stack, keep) kept) :
    k ∈ kept ↔ Ahead next (stack, keep) k := by
  obtain ⟨s, hrea, hdone⟩ := h
  have hinv : Ahead next s k ↔ Ahead next (stack, keep) k := by
    refine hrea.induct (fun s => Ahead next s k ↔ Ahead next (stack, keep) k) Iff.rfl ?_
    intro a b _ hinv hturn
    exact (ahead_turn hturn).trans hinv
  obtain ⟨_ | ⟨q, stack'⟩, keep'⟩ := s
  · cases hdone
    simpa [Ahead] using hinv
  · cases hdone

theorem halts_of_acc (h : Acc (flip (Edge next)) k) : ∀ stack keep,
    (∀ keep', Loop.Halts (turn next) (stack, keep')) →
      Loop.Halts (turn next) (k :: stack, keep) := by
  induction h with
  | intro k _ ih =>
    intro stack keep hstk
    refine Loop.Halts.of_next rfl ?_
    have hpus : ∀ l : List K, (∀ b ∈ l, b ∈ next k) → ∀ keep',
        Loop.Halts (turn next) (l ++ stack, keep') := by
      intro l
      induction l with
      | nil => exact fun _ keep' => hstk keep'
      | cons b l ihl =>
        intro hl keep'
        exact ih b (hl b mem_cons_self) (l ++ stack) keep'
          (ihl fun b' hb' => hl b' (mem_cons_of_mem b hb'))
    exact hpus (next k).reverse (fun b hb => mem_reverse.mp hb) (insert k keep)

theorem exists_leaves [Finite K] (h : ∀ k, ¬Relation.TransGen (Edge next) k k) (start : K) :
    ∃ kept, Loop.Leaves (turn next) ([start], ∅) kept ∧
      ∀ k, k ∈ kept ↔ Relation.ReflTransGen (Edge next) start k := by
  have hemp : ∀ keep, Loop.Halts (turn next) ([], keep) := fun keep => ⟨keep, _, .refl, rfl⟩
  obtain ⟨kept, hkept⟩ := halts_of_acc (Ancestry.acc_of_acyclic h start) [] ∅ hemp
  refine ⟨kept, hkept, fun k => ?_⟩
  rw [mem_of_leaves hkept]
  simp [Ahead]

end Worklist
