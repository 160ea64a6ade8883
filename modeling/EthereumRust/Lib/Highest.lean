import EthereumRust.Lib.Batches

/-!
# The highest values of a list

A list that is kept in falling order can be kept at a fixed length by dropping its last value before
a new one is put in. This leaves the highest values exactly if the dropped value is not above the
new one (`eq_highest_iff`).
-/

namespace Highest

open List

variable [LinearOrder α] {l : List α}

def falling (l : List α) : List α := Batches.sortByKey OrderDual.toDual l

def highest (n : Nat) (l : List α) : List α := (falling l).take n

theorem falling_eq (hsrt : l.Pairwise (· ≥ ·)) (hperm : l.Perm l') : falling l' = l := by
  have hfal : (falling l').Pairwise (· ≥ ·) := Batches.sorted_sortByKey OrderDual.toDual l'
  exact ((Batches.perm_sortByKey _ l').trans hperm.symm).eq_of_pairwise' hfal hsrt

theorem eq_highest_iff (hsrt : (front ++ [least]).Pairwise (· ≥ ·))
    (hl : l.Pairwise (· ≥ ·)) (hperm : l.Perm (front ++ [x])) :
    l = highest (front.length + 1) (front ++ [least] ++ [x]) ↔ least ≤ x := by
  have hfro : ∀ a ∈ front, least ≤ a := fun a ha =>
    (pairwise_append.mp hsrt).2.2 a ha least mem_cons_self
  constructor
  · intro h
    by_contra hlt
    -- the new value is lower than all others, so that the old ones are the highest
    have hold : falling (front ++ [least] ++ [x]) = front ++ [least] ++ [x] := by
      refine falling_eq (pairwise_append.mpr ⟨hsrt, pairwise_singleton _ _, ?_⟩) .rfl
      intro a ha b hb
      cases mem_singleton.mp hb
      obtain ha | ha := mem_append.mp ha
      · exact (le_of_not_ge hlt).trans (hfro a ha)
      · cases mem_singleton.mp ha
        exact le_of_not_ge hlt
    rw [highest, hold, take_left' (by simp)] at h
    subst h
    have heq := (perm_append_left_iff front).mp hperm
    cases singleton_perm_singleton.mp heq
    exact hlt le_rfl
  · intro hle
    have hnew : falling (front ++ [least] ++ [x]) = l ++ [least] := by
      refine falling_eq (pairwise_append.mpr ⟨hl, pairwise_singleton _ _, ?_⟩) ?_
      · intro a ha b hb
        cases mem_singleton.mp hb
        obtain ha | ha := mem_append.mp (hperm.mem_iff.mp ha)
        · exact hfro a ha
        · cases mem_singleton.mp ha
          exact hle
      · refine (hperm.append_right [least]).trans ?_
        rw [append_assoc, append_assoc]
        exact perm_append_comm.append_left front
    have hlen : l.length = front.length + 1 := by
      rw [hperm.length_eq, length_append, length_singleton]
    rw [highest, hnew, take_left' hlen]

end Highest
