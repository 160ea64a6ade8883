import Mathlib.Data.List.Nodup

/-!
# Initial parts of a list

A list without duplicates is determined by its members and by which of two comes first. So a part
of such a list is an initial one exactly when it has, before each of its members, all those that
come before it in the list (`isPrefix_iff_pairs`).
-/

namespace Prefixes

open List

variable {α : Type} {l : List α}

theorem pair_sublist_cons : [a, b].Sublist (x :: l) ↔ [a, b].Sublist l ∨ a = x ∧ b ∈ l := by
  rw [cons_sublist_cons', singleton_sublist]

theorem mem_of_pair_sublist (h : [a, b].Sublist l) : a ∈ l ∧ b ∈ l :=
  ⟨h.subset mem_cons_self, h.subset (mem_cons_of_mem a mem_cons_self)⟩

theorem not_pair_sublist_swap (hl : l.Nodup) (h : [a, b].Sublist l) : ¬[b, a].Sublist l := by
  induction l with
  | nil => cases h
  | cons x l ih =>
    obtain ⟨hx, hl⟩ := nodup_cons.mp hl
    rw [pair_sublist_cons] at h ⊢
    rintro (h' | ⟨rfl, ha⟩) <;> rcases h with h | ⟨rfl, hb⟩
    · exact ih hl h h'
    · exact hx (mem_of_pair_sublist h').2
    · exact hx (mem_of_pair_sublist h).2
    · exact hx ha

theorem pair_sublist_of_isPrefix (hl : l.Nodup) (hm : m <+: l) (h : [a, b].Sublist l) (hb : b ∈ m) :
    [a, b].Sublist m := by
  induction m generalizing l with
  | nil => cases hb
  | cons x m ih =>
    obtain ⟨rest, rfl⟩ := hm
    obtain ⟨hx, hl⟩ := nodup_cons.mp hl
    -- behind `x` the list goes on without it
    have hlat : b ∈ m ++ rest → b ∈ m := by
      intro hmem
      rcases mem_cons.mp hb with rfl | hb
      · exact (hx hmem).elim
      · exact hb
    rcases pair_sublist_cons.mp h with h | ⟨rfl, hmem⟩
    · exact .cons x (ih hl (prefix_append m rest) h (hlat (mem_of_pair_sublist h).2))
    · exact .cons_cons a (singleton_sublist.mpr (hlat hmem))

theorem isPrefix_of_pairs (hl : l.Nodup) (hm : m.Nodup) (hsub : m ⊆ l)
    (h : ∀ a b, [a, b].Sublist l → b ∈ m → [a, b].Sublist m) : m <+: l := by
  induction l generalizing m with
  | nil =>
    obtain rfl : m = [] := subset_nil.mp hsub
    exact nil_prefix
  | cons x l ih =>
    cases m with
    | nil => exact nil_prefix
    | cons y m =>
      obtain ⟨hx, hrest⟩ := nodup_cons.mp hl
      obtain ⟨hy, hm⟩ := nodup_cons.mp hm
      -- a first member other than `x` would have `x` before it
      obtain rfl : y = x := by
        by_contra hne
        have hmem : y ∈ l := (mem_cons.mp (hsub mem_cons_self)).resolve_left hne
        have hpair := h x y (pair_sublist_cons.mpr (.inr ⟨rfl, hmem⟩)) mem_cons_self
        rcases pair_sublist_cons.mp hpair with hpair | ⟨heq, -⟩
        · exact hy (mem_of_pair_sublist hpair).2
        · exact hne heq.symm
      rw [prefix_cons_inj]
      refine ih hrest hm ?_ ?_
      · intro z hz
        refine (mem_cons.mp (hsub (mem_cons_of_mem y hz))).resolve_left ?_
        rintro rfl
        exact hy hz
      · intro a b hpair hb
        have hpair' := h a b (.cons y hpair) (mem_cons_of_mem y hb)
        rcases pair_sublist_cons.mp hpair' with hpair' | ⟨rfl, -⟩
        · exact hpair'
        · exact (hx (mem_of_pair_sublist hpair).1).elim

theorem isPrefix_iff_pairs (hl : l.Nodup) (hm : m.Nodup) (hsub : m ⊆ l) :
    m <+: l ↔ ∀ a b, [a, b].Sublist l → b ∈ m → [a, b].Sublist m :=
  ⟨fun h _ _ => pair_sublist_of_isPrefix hl h, isPrefix_of_pairs hl hm hsub⟩

end Prefixes
