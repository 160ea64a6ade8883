import Mathlib.Data.List.Perm.Basic

/-!
# Dealing out a list

A list is cut into consecutive parts, the last of which has the remainder (`part`), or dealt in
turn (`deal`). Either way each item goes to one hand.
-/

namespace Dealing

open List

variable {α : Type} {count : Nat}

def part (count size : Nat) (l : List α) (i : Nat) : List α :=
  (l.take (if i = count - 1 then l.length else (i + 1) * size)).drop (i * size)

theorem flatMap_part (hcnt : 0 < count) : (range count).flatMap (part count size l) = l := by
  obtain ⟨n, rfl⟩ := Nat.exists_eq_add_one_of_ne_zero (Nat.ne_of_gt hcnt)
  have hbef : ∀ k ≤ n, (range k).flatMap (part (n + 1) size l) = l.take (k * size) := by
    intro k hk
    induction k with
    | zero => simp
    | succ k ih =>
      have hlast : k ≠ n + 1 - 1 := by omega
      rw [range_succ, flatMap_append, ih (Nat.le_of_succ_le hk), flatMap_singleton,
        part, if_neg hlast, drop_take, Nat.succ_mul, Nat.add_sub_cancel_left, take_add]
  rw [range_succ, flatMap_append, hbef n (Nat.le_refl n), flatMap_singleton, part,
    if_pos (Nat.add_sub_cancel n 1).symm, take_length, take_append_drop]

def deal (count : Nat) (l : List α) : List (List α) :=
  l.zipIdx.foldl (fun hands item => hands.modify (item.2 % count) (· ++ [item.1]))
    (List.replicate count [])

theorem flatten_modify_perm {hands : List (List α)} (h : i < hands.length) :
    (hands.modify i (· ++ [a])).flatten.Perm (hands.flatten ++ [a]) := by
  induction hands generalizing i with
  | nil => exact absurd h (Nat.not_lt_zero i)
  | cons hand hands ih =>
    cases i with
    | zero =>
      rw [modify_zero_cons, flatten_cons, flatten_cons, append_assoc, append_assoc]
      exact perm_append_comm.append_left hand
    | succ i =>
      rw [modify_succ_cons, flatten_cons, flatten_cons, append_assoc]
      exact (ih (Nat.lt_of_succ_lt_succ h)).append_left hand

theorem flatten_deal (hcnt : 0 < count) (l : List α) : (deal count l).flatten.Perm l := by
  have hrun : ∀ (items : List (α × Nat)) (hands : List (List α)), hands.length = count →
      (items.foldl (fun hands item => hands.modify (item.2 % count) (· ++ [item.1]))
        hands).flatten.Perm (hands.flatten ++ items.map Prod.fst) := by
    intro items
    induction items with
    | nil => simp
    | cons item items ih =>
      intro hands hlen
      have hlt : item.2 % count < hands.length := by
        rw [hlen]
        exact Nat.mod_lt _ hcnt
      refine (ih _ ((length_modify ..).trans hlen)).trans ?_
      rw [map_cons, append_cons]
      exact (flatten_modify_perm hlt).append_right _
  have hdea := hrun l.zipIdx (replicate count []) length_replicate
  rwa [flatten_replicate_nil, nil_append, zipIdx_map_fst] at hdea

end Dealing
