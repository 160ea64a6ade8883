import EthereumRust.Types
import Mathlib.Algebra.Order.BigOperators.Group.List

/-!
# Committees (`crates/ssf/src/committee.rs`)

A committee has a quorum with the members that hold two thirds of its stake. The participants are
given by their indices, in a list that may repeat an index or name a validator of no committee.
-/

namespace EthereumRust.Ssf

open Rust List

structure ValidatorInfo where
  index : UInt64
  pubkey : Bytes
  stake : U256

structure Committee where
  index : Nat
  validators : List ValidatorInfo
  epoch : UInt64
  totalStake : U256

namespace Committee

def new (index : Nat) (validators : List ValidatorInfo) : Checked Committee := do
  let totalStake ← U256.sum (validators.map (·.stake))
  return { index, validators, epoch := 0, totalStake }

def hasQuorum (self : Committee) (participatingValidators : List UInt64) : Checked Bool := do
  let participatingStake ← U256.sum
    ((self.validators.filter fun v => participatingValidators.contains v.index).map (·.stake))
  let weighted ← participatingStake.mul 3
  let required ← self.totalStake.mul 2
  return required ≤ weighted

/-- The stake of the members that are picked. -/
def stakeOf (self : Committee) (picked : ValidatorInfo → Bool) : Nat :=
  ((self.validators.filter picked).map (·.stake.toNat)).sum

section
variable {s : Committee} {index : Nat} {validators : List ValidatorInfo}

theorem stakeOf_eq_sum :
    s.stakeOf picked = (s.validators.map fun v => if picked v then v.stake.toNat else 0).sum := by
  unfold stakeOf
  induction s.validators with
  | nil => rfl
  | cons v validators ih =>
    rw [filter_cons, map_cons, sum_cons, ← ih]
    split_ifs
    · rw [map_cons, sum_cons]
    · rw [zero_add]

theorem stakeOf_add_le (s : Committee) (picked picked' : ValidatorInfo → Bool) :
    s.stakeOf picked + s.stakeOf picked' ≤
      s.stakeOf (fun _ => true) + s.stakeOf fun v => picked v && picked' v := by
  simp only [stakeOf_eq_sum, ← sum_map_add]
  refine sum_le_sum fun v _ => ?_
  cases picked v with
  | true => simp
  | false =>
    cases picked' v with
    | true => simp
    | false => simp

theorem toNat_totalStake (h : new index validators = .ok s) :
    s.totalStake.toNat = s.stakeOf fun _ => true := by
  obtain ⟨stake, hsum, h⟩ := h.of_bind
  cases h
  rw [stakeOf, filter_true]
  rw [U256.sum_eq_ok, map_map] at hsum
  exact hsum

theorem of_hasQuorum (h : s.hasQuorum participating = .ok true) :
    2 * s.totalStake.toNat ≤ 3 * s.stakeOf fun v => participating.contains v.index := by
  obtain ⟨participatingStake, hsum, h⟩ := h.of_bind
  obtain ⟨weighted, hwei, h⟩ := h.of_bind
  obtain ⟨required, hreq, h⟩ := h.of_bind
  have hle : required ≤ weighted := of_decide_eq_true (Except.ok.inj h)
  rw [U256.sum_eq_ok, map_map] at hsum
  rw [U256.mul_eq_ok] at hwei hreq
  rw [BitVec.le_def, hwei, hreq, hsum] at hle
  change _ * 2 ≤ stakeOf s _ * 3 at hle
  omega

end

/-- Two quorums of a committee have members with a third of its stake in common. -/
theorem quorum_intersection {index : Nat} {validators : List ValidatorInfo} {com : Committee}
    {participating participating' : List UInt64} (hnew : new index validators = .ok com)
    (h : com.hasQuorum participating = .ok true) (h' : com.hasQuorum participating' = .ok true) :
    com.totalStake.toNat ≤
      3 * com.stakeOf fun v => participating.contains v.index &&
        participating'.contains v.index := by
  have hquo := of_hasQuorum h
  have hquo' := of_hasQuorum h'
  have htot := toNat_totalStake hnew
  have hpar := com.stakeOf_add_le (fun v => participating.contains v.index)
    fun v => participating'.contains v.index
  omega

namespace Sample

def members : List ValidatorInfo := [⟨0, [], 1⟩, ⟨1, [], 1⟩, ⟨2, [], 1⟩]

def committee : Committee := { index := 0, validators := members, epoch := 0, totalStake := 3 }

end Sample

open Sample in
theorem quorum_intersection_three :
    committee.totalStake.toNat ≤
      3 * committee.stakeOf fun v => [0, 1, 1, 9].contains v.index && [1, 2].contains v.index :=
  quorum_intersection (show new 0 members = .ok committee from rfl) rfl rfl

end Committee

end EthereumRust.Ssf
