import Mathlib.Data.Finmap
import Mathlib.Data.List.MinMax

/-!
# Priority queues

A priority queue maps items to priorities and shows an entry of greatest priority. Which of several
such entries it shows depends on how it is stored, so the queue is any type with the operations and
the finite map that it holds.
-/

class PriorityQueue (Q : Type) (I P : outParam Type) [DecidableEq I] [LinearOrder P] where
  empty : Q
  push : Q → I → P → Q
  remove : Q → I → Q
  peek : Q → Option (I × P)
  content : Q → Finmap fun _ : I => P
  content_empty : content empty = ∅
  content_push : ∀ q i p, content (push q i p) = (content q).insert i p
  content_remove : ∀ q i, content (remove q i) = (content q).erase i
  peek_some : ∀ {q i p}, peek q = some (i, p) →
    (content q).lookup i = some p ∧ ∀ j r, (content q).lookup j = some r → r ≤ p
  peek_none : ∀ {q}, peek q = none → content q = ∅

namespace PriorityQueue

variable {I P : Type} [DecidableEq I]

instance [LinearOrder P] : PriorityQueue (AList fun _ : I => P) I P where
  empty := ∅
  push q i p := q.insert i p
  remove q i := q.erase i
  peek q := (q.entries.argmax Sigma.snd).map fun e => (e.1, e.2)
  content q := q.toFinmap
  content_empty := rfl
  content_push _ _ _ := (Finmap.insert_toFinmap ..).symm
  content_remove _ _ := (Finmap.erase_toFinmap ..).symm
  peek_some := by
    intro q i p h
    obtain ⟨e, he, hep⟩ := Option.map_eq_some_iff.mp h
    cases hep
    refine ⟨AList.mem_lookup_iff.mpr (List.argmax_mem he), fun j r hr => ?_⟩
    rw [Finmap.lookup_toFinmap] at hr
    exact List.le_of_mem_argmax (AList.mem_lookup_iff.mp hr) he
  peek_none := by
    intro q h
    have hentries : q.entries = [] := List.argmax_eq_none.mp (Option.map_eq_none_iff.mp h)
    refine Finmap.ext_lookup fun i => ?_
    rw [Finmap.lookup_toFinmap, Finmap.lookup_empty, AList.lookup, hentries, List.dlookup_nil]

end PriorityQueue
