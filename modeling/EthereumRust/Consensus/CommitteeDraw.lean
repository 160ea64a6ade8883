import EthereumRust.Consensus.ProofOfStake
import Mathlib.Data.List.GetD

/-!
# The positions a committee is drawn from (`crates/consensus`: `pos.rs`)

`get_committee` keeps the positions that are still to be drawn in a vector and takes them out of it
with `swap_remove`.
-/

namespace EthereumRust.Consensus.ProofOfStake

open Rust EthereumRust.Core List

theorem swapRemove_perm {indices : List Nat} {idx : Nat} (h : idx < indices.length) :
    (indices.getD idx 0 :: swapRemove indices idx).Perm indices := by
  have hne : indices ≠ [] := ne_nil_of_length_pos (Nat.zero_lt_of_lt h)
  obtain ⟨front, last, rfl⟩ := eq_nil_or_concat' indices |>.resolve_left hne
  rw [length_append] at h
  rw [swapRemove, getLastD_concat]
  -- the last pos moves into the hole, unless it is the one that is taken out
  obtain hlt | rfl := Nat.lt_succ_iff_lt_or_eq.mp h
  · rw [set_append_left _ _ hlt, dropLast_concat, getD_append _ _ _ _ hlt, getD_eq_getElem _ _ hlt]
    calc front[idx] :: front.set idx last
      _ ~ front[idx] :: last :: front.eraseIdx idx := (set_perm_cons_eraseIdx hlt last).cons _
      _ ~ last :: front[idx] :: front.eraseIdx idx := List.Perm.swap _ _ _
      _ ~ last :: front := (getElem_cons_eraseIdx_perm hlt).cons _
      _ ~ front ++ [last] := (perm_append_singleton _ _).symm
  · rw [set_append_right _ _ (le_refl _), Nat.sub_self, set_cons_zero,
      dropLast_concat, getD_append_right _ _ _ _ (le_refl _), Nat.sub_self]
    exact (perm_append_singleton _ _).symm

theorem filterMap_range_getElem? (validators : List Address) :
    (range validators.length).filterMap (validators[·]?) = validators := by
  induction validators with
  | nil => rfl
  | cons v rest ih =>
    rw [length_cons, range_succ_eq_map, filterMap_cons_some getElem?_cons_zero, filterMap_map]
    exact congrArg _ ih

section
variable [SeedableRng] {validators : List Address}

def drawPositions : Nat → List Nat → Rng → List Nat
  | 0, _, _ => []
  | _ + 1, [], _ => []
  | size + 1, first :: rest, rng =>
    let (idx, rng) := genRange rest.length rng
    (first :: rest).getD idx 0 :: drawPositions size (swapRemove (first :: rest) idx) rng

theorem exists_drawPositions_perm (rng : Rng) (h : size ≤ indices.length) :
    (drawPositions size indices rng).length = size ∧
      ∃ left, (drawPositions size indices rng ++ left).Perm indices := by
  induction size generalizing indices rng with
  | zero => exact ⟨rfl, indices, .refl _⟩
  | succ size ih =>
    cases indices with
    | nil => cases h
    | cons first rest =>
      have hperm := @swapRemove_perm (first :: rest) _ (genRange rest.length rng).1.isLt
      have hlen := Nat.le_of_succ_le_succ (hperm.length_eq ▸ h)
      obtain ⟨hsize, left, hleft⟩ := ih (genRange rest.length rng).2 hlen
      exact ⟨congrArg (· + 1) hsize, left, (hleft.cons _).trans hperm⟩

theorem drawCommittee_eq (rng : Rng) (hsize : size ≤ indices.length)
    (hind : ∀ i ∈ indices, i < validators.length) :
    drawCommittee validators size indices rng =
      .ok ((drawPositions size indices rng).filterMap (validators[·]?)) := by
  induction size generalizing indices rng with
  | zero => rfl
  | succ size ih =>
    cases indices with
    | nil => cases hsize
    | cons first rest =>
      have hperm := @swapRemove_perm (first :: rest) _ (genRange rest.length rng).1.isLt
      have hlen := Nat.le_of_succ_le_succ (hperm.length_eq ▸ hsize)
      have hdra := getElem?_eq_getElem (hind _ (hperm.subset mem_cons_self))
      rw [drawCommittee, drawPositions, filterMap_cons_some hdra]
      dsimp only
      have hleft : ∀ i ∈ swapRemove (first :: rest) (genRange rest.length rng).1,
          i < validators.length := by
        intro i hi
        exact hind i (hperm.subset (mem_cons_of_mem _ hi))
      rw [hdra, ih _ hlen hleft]
      rfl

/-- The positions of the committee of a slot in the list of validators. -/
def committeePositions (self : ProofOfStake) (slot : UInt64) : List Nat :=
  if self.validators.length ≤ 128 then List.range self.validators.length
  else
    drawPositions (min 128 (self.validators.length / 2)) (List.range self.validators.length)
      (seedFromU64 slot)

/-- The committee consists of the validators at distinct positions: of all of them when there are at
most 128, and of exactly `min(128, n / 2)` otherwise. -/
theorem getCommittee_at_positions (s : ProofOfStake) (slot : UInt64) :
    let n := s.validators.length
    let positions := s.committeePositions slot
    s.getCommittee slot = .ok (positions.filterMap (s.validators[·]?)) ∧
      positions.Nodup ∧ (∀ i ∈ positions, i < n) ∧
      positions.length = if n ≤ 128 then n else min 128 (n / 2) := by
  intro n positions
  unfold positions committeePositions getCommittee
  split_ifs with hn
  · rw [filterMap_range_getElem?]
    exact ⟨rfl, nodup_range, fun i hi => mem_range.mp hi, length_range⟩
  · have hsize : min 128 (n / 2) ≤ (range n).length := by
      rw [length_range]
      omega
    obtain ⟨hlen, left, hperm⟩ := exists_drawPositions_perm (seedFromU64 slot) hsize
    refine ⟨drawCommittee_eq _ hsize fun i hi => mem_range.mp hi, ?_, fun i hi => ?_, hlen⟩
    · exact (hperm.nodup_iff.mpr nodup_range).of_append_left
    · exact mem_range.mp (hperm.subset (mem_append_left _ hi))

end
end EthereumRust.Consensus.ProofOfStake
