import Mathlib.Data.Finmap

/-!
# Totals over finite maps

The values of a map weighed and added up, and what one write changes of the total.
-/

namespace MapTotal

open Finmap

variable {K V : Type} (weight : V → Nat) {k : K}

def total (weight : V → Nat) (m : Finmap fun _ : K => V) : Nat :=
  (m.entries.map fun entry => weight entry.2).sum

variable [DecidableEq K]

theorem total_insert_of_notMem (h : k ∉ m) :
    total weight (m.insert k v) = total weight m + weight v := by
  rw [total, entries_insert_of_notMem h, Multiset.map_cons, Multiset.sum_cons, add_comm]
  rfl

theorem total_erase (h : m.lookup k = some v) :
    total weight (m.erase k) + weight v = total weight m := by
  have hnot : k ∉ m.erase k := notMem_erase_self
  have hres : (m.erase k).insert k v = m := by
    refine ext_lookup fun k' => ?_
    by_cases hk : k' = k
    · rw [hk, lookup_insert, h]
    · rw [lookup_insert_of_ne _ hk, lookup_erase_ne hk]
  rw [← total_insert_of_notMem weight hnot, hres]

theorem total_insert (m : Finmap fun _ : K => V) (k : K) (v : V) :
    total weight (m.insert k v) + ((m.lookup k).map weight).getD 0 = total weight m + weight v := by
  have hins : m.insert k v = (m.erase k).insert k v := by
    refine ext_lookup fun k' => ?_
    by_cases hk : k' = k
    · rw [hk, lookup_insert, lookup_insert]
    · rw [lookup_insert_of_ne _ hk, lookup_insert_of_ne _ hk, lookup_erase_ne hk]
  rw [hins, total_insert_of_notMem weight notMem_erase_self]
  cases hk : m.lookup k with
  | none =>
    have hera : m.erase k = m := by
      refine ext_lookup fun k' => ?_
      by_cases hk' : k' = k
      · rw [hk', lookup_erase, hk]
      · exact lookup_erase_ne hk'
    rw [hera]
    rfl
  | some old =>
    rw [Option.map_some, Option.getD_some, ← total_erase weight hk]
    omega

theorem weight_le_total (h : m.lookup k = some v) : weight v ≤ total weight m := by
  have hera := total_erase weight h
  omega

end MapTotal
