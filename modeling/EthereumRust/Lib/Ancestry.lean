import EthereumRust.Lib.Loop
import Mathlib.Data.Fintype.Card

/-!
# Walking up a forest

A node has at most one parent. `Above k a` says that `a` is `k` or is found from `k` along the
parents. A loop whose cursor moves from a node to its parent in every turn is left when the parents
form no cycle (`halts_of_acyclic`).
-/

namespace Ancestry

variable {K : Type}

theorem acc_of_acyclic [Finite K] (h : ∀ k, ¬Relation.TransGen r k k) (k : K) : Acc (flip r) k := by
  let below (b a : K) : Prop := Relation.TransGen r a b
  have : Std.Irrefl below := ⟨h⟩
  have hwf : WellFounded below := Finite.wellFounded_of_trans_of_irrefl below
  exact Subrelation.accessible (fun hedge => .single hedge) (hwf.apply k)

theorem acyclic_of_rank {α : Type} [Preorder α] (rank : K → α)
    (h : ∀ a b, r a b → rank b < rank a) (k : K) : ¬Relation.TransGen r k k := by
  have hdrop : ∀ a, Relation.TransGen r k a → rank a < rank k := by
    intro a hpath
    induction hpath with
    | single hstep => exact h _ _ hstep
    | tail _ hstep ih => exact (h _ _ hstep).trans ih
  exact fun hcyc => lt_irrefl _ (hdrop k hcyc)

section
variable (parent : K → Option K)

def Parent (child p : K) : Prop := parent child = some p

/-- The second key is the first or an ancestor of it. -/
def Above : K → K → Prop := Relation.ReflTransGen (Parent parent)

def Acyclic : Prop := ∀ k, ¬Relation.TransGen (Parent parent) k k

end

variable {a : K}

theorem above_of_parent (h : parent k = some p) : Above parent k a ↔ a = k ∨ Above parent p a := by
  unfold Above
  rw [Relation.ReflTransGen.cases_head_iff, eq_comm]
  refine or_congr Iff.rfl ⟨?_, fun habv => ⟨p, h, habv⟩⟩
  rintro ⟨p', hp', habv⟩
  cases h.symm.trans hp'
  exact habv

theorem above_of_none (h : parent k = none) : Above parent k a ↔ a = k := by
  unfold Above
  rw [Relation.ReflTransGen.cases_head_iff, eq_comm, or_iff_left]
  rintro ⟨p, hp, -⟩
  cases h.symm.trans hp

theorem Above.total (h : Above parent k a) (h' : Above parent k b) :
    Above parent a b ∨ Above parent b a := by
  refine Relation.ReflTransGen.total_of_right_unique ?_ h h'
  intro child p p' hp hp'
  exact Option.some.inj (hp.symm.trans hp')

theorem Above.antisymm (hacy : Acyclic parent) (h : Above parent k a) (h' : Above parent a k) :
    k = a := by
  obtain heq | hstep := Relation.reflTransGen_iff_eq_or_transGen.mp h
  · exact heq.symm
  · exact absurd (hstep.trans_left h') (hacy k)

theorem halts_of_acyclic [Finite K] {turn : σ → Loop.Turn σ β} (cursor : σ → K)
    (hacy : Acyclic parent)
    (hnext : ∀ s s', turn s = .next s' → parent (cursor s) = some (cursor s')) (s : σ) :
    Loop.Halts turn s := by
  generalize hk : cursor s = k
  induction acc_of_acyclic hacy k generalizing s with
  | intro k _ ih =>
    cases hs : turn s with
    | done b => exact ⟨b, .of_done hs⟩
    | next s' =>
      have hpar := hnext s s' hs
      rw [hk] at hpar
      exact .of_next hs (ih _ hpar s' rfl)

end Ancestry
