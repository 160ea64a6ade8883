import Mathlib.Data.List.Flatten
import Mathlib.Data.List.Nodup
import Mathlib.Data.List.Range

/-!
# Greedy grouping

Items are numbered from 0. A loop over them opens a group for an item that is in no group yet, and
puts into it all later items that conflict with it (`collect`). An item that conflicts with the
first members of several groups is put into each of these.
-/

namespace Greedy

open List

def at2 {α : Type} (r : α → α → Bool) (xs : List α) (i j : Nat) : Bool :=
  match xs[i]?, xs[j]? with
  | some a, some b => r a b
  | _, _ => false

variable (conflict : Nat → Nat → Bool) (n : Nat)

def group (i : Nat) : List Nat := i :: (List.range' (i + 1) (n - (i + 1))).filter (conflict i)

def round (s : List (List Nat) × List Nat) (i : Nat) : List (List Nat) × List Nat :=
  if i ∈ s.2 then s else (s.1 ++ [group conflict n i], s.2 ++ group conflict n i)

def collect : List (List Nat) := ((List.range n).foldl (round conflict n) ([], [])).1

/-- The items among the first `n` that conflict with no first member of an earlier group. -/
def openers : Nat → List Nat
  | 0 => []
  | n + 1 => if (openers n).any (conflict · n) then openers n else openers n ++ [n]

variable {conflict n} {i : Nat}

theorem lt_of_mem_openers (hmem : h ∈ openers conflict k) : h < k := by
  induction k with
  | zero => cases hmem
  | succ k ih =>
    rw [openers] at hmem
    split_ifs at hmem
    · exact Nat.lt_succ_of_lt (ih hmem)
    · rcases mem_append.mp hmem with hmem | hmem
      · exact Nat.lt_succ_of_lt (ih hmem)
      · rw [mem_singleton.mp hmem]
        exact Nat.lt_succ_self k

theorem mem_group : j ∈ group conflict n i ↔ j = i ∨ i < j ∧ j < n ∧ conflict i j = true := by
  rw [group, mem_cons, mem_filter, mem_range'_1, and_assoc]
  refine or_congr_right ⟨fun h => ⟨h.1, ?_, h.2.2⟩, fun h => ⟨h.1, ?_, h.2.2⟩⟩ <;> omega

theorem pairwise_group : (group conflict n i).Pairwise (· < ·) := by
  rw [group, pairwise_cons]
  refine ⟨fun j hj => ?_, (pairwise_lt_range').filter _⟩
  exact (mem_range'_1.mp (mem_of_mem_filter hj)).1

theorem mem_flatMap_group (hk : k < n) :
    k ∈ (openers conflict k).flatMap (group conflict n) ↔
      (openers conflict k).any (conflict · k) = true := by
  rw [mem_flatMap, any_eq_true]
  refine exists_congr fun h => and_congr_right fun hmem => ?_
  have hlt := lt_of_mem_openers hmem
  rw [mem_group]
  constructor
  · rintro (rfl | ⟨-, -, hcfl⟩)
    · exact absurd hlt (lt_irrefl _)
    · exact hcfl
  · intro hcfl
    exact .inr ⟨hlt, hk, hcfl⟩

theorem foldl_round (hk : k ≤ n) : (range k).foldl (round conflict n) ([], []) =
    ((openers conflict k).map (group conflict n),
      (openers conflict k).flatMap (group conflict n)) := by
  induction k with
  | zero => rfl
  | succ k ih =>
    rw [range_succ, foldl_append, ih (Nat.le_of_succ_le hk), foldl_cons, foldl_nil, round, openers]
    by_cases hany : (openers conflict k).any (conflict · k) = true
    · rw [if_pos ((mem_flatMap_group hk).mpr hany), if_pos hany]
    · rw [if_neg (mt (mem_flatMap_group hk).mp hany), if_neg hany, map_append, flatMap_append]
      simp only [map_cons, map_nil, flatMap_cons, flatMap_nil, append_nil]

theorem collect_eq : collect conflict n = (openers conflict n).map (group conflict n) := by
  rw [collect, foldl_round le_rfl]

theorem mem_openers_and_lt (hk : k ≤ n) :
    h ∈ openers conflict n ∧ h < k ↔ h ∈ openers conflict k := by
  induction hk with
  | refl => exact and_iff_left_of_imp lt_of_mem_openers
  | step hk ih =>
    rw [← ih, openers]
    split_ifs
    · exact Iff.rfl
    · rw [mem_append, mem_singleton]
      refine and_congr_left fun hlt => or_iff_left ?_
      rintro rfl
      exact Nat.not_lt_of_le hk hlt

theorem pairwise_openers : (openers conflict n).Pairwise (· < ·) := by
  induction n with
  | zero => exact .nil
  | succ n ih =>
    rw [openers]
    split_ifs
    · exact ih
    · refine pairwise_append.mpr ⟨ih, pairwise_singleton _ _, fun h hh j hj => ?_⟩
      rw [mem_singleton.mp hj]
      exact lt_of_mem_openers hh

theorem mem_openers_succ :
    i ∈ openers conflict (i + 1) ↔ ∀ h ∈ openers conflict i, conflict h i = false := by
  have hnot : i ∉ openers conflict i := fun hmem => lt_irrefl i (lt_of_mem_openers hmem)
  rw [openers]
  split_ifs with hany
  · refine iff_of_false hnot fun hfree => ?_
    obtain ⟨h, hh, hcfl⟩ := any_eq_true.mp hany
    rw [hfree h hh] at hcfl
    cases hcfl
  · refine iff_of_true (mem_append_right _ (mem_singleton_self i)) fun h hh => ?_
    exact Bool.eq_false_iff.mpr fun hcfl => hany (any_eq_true.mpr ⟨h, hh, hcfl⟩)

theorem mem_openers : i ∈ openers conflict n ↔
    i < n ∧ ∀ h ∈ openers conflict n, h < i → conflict h i = false := by
  by_cases hi : i < n
  · have hiff : i ∈ openers conflict n ∧ i < i + 1 ↔ i ∈ openers conflict (i + 1) :=
      mem_openers_and_lt hi
    rw [and_iff_left (Nat.lt_succ_self i), mem_openers_succ] at hiff
    rw [hiff, and_iff_right hi]
    refine forall_congr' fun h => ?_
    rw [← mem_openers_and_lt (le_of_lt hi), and_imp]
  · exact iff_of_false (mt lt_of_mem_openers hi) fun hmem => hi hmem.1

theorem exists_group (hi : i < n) : ∃ h ∈ openers conflict n, i ∈ group conflict n h := by
  by_cases hopen : i ∈ openers conflict n
  · exact ⟨i, hopen, mem_group.mpr (.inl rfl)⟩
  · rw [mem_openers] at hopen
    push Not at hopen
    obtain ⟨h, hh, hlt, hcfl⟩ := hopen hi
    exact ⟨h, hh, mem_group.mpr (.inr ⟨hlt, hi, Bool.not_eq_false _ ▸ hcfl⟩)⟩

theorem pairwise_iff_of_lt {l : List Nat} (hl : l.Pairwise (· < ·)) :
    l.Pairwise P ↔ ∀ a ∈ l, ∀ b ∈ l, a < b → P a b := by
  constructor
  · intro hP
    refine List.Pairwise.forall_of_forall_of_flip (fun a _ h => absurd h (lt_irrefl a)) ?_ ?_
    · exact hP.imp (S := fun a b => a < b → P a b) fun h _ => h
    · exact hl.imp fun hab hba => absurd hba (Nat.not_lt_of_lt hab)
  · intro h
    exact hl.imp_of_mem fun ha hb hab => h _ ha _ hb hab

theorem pairwise_flatten_collect (hij : i < j) :
    (collect conflict n).flatten.Pairwise (fun a b => ¬(a = j ∧ b = i)) ↔
      ∀ h' ∈ openers conflict n, ∀ h ∈ openers conflict n, h' < h →
        j ∈ group conflict n h' → i ∉ group conflict n h := by
  have hins : ∀ g ∈ collect conflict n, g.Pairwise fun a b => ¬(a = j ∧ b = i) := by
    intro g hg
    rw [collect_eq] at hg
    obtain ⟨h, -, rfl⟩ := mem_map.mp hg
    refine pairwise_group.imp ?_
    rintro a b hab ⟨rfl, rfl⟩
    exact Nat.lt_asymm hab hij
  rw [pairwise_flatten, and_iff_right hins, collect_eq, pairwise_map,
    pairwise_iff_of_lt pairwise_openers]
  refine forall₂_congr fun h' _ => forall₂_congr fun h _ => forall_congr' fun _ => ?_
  constructor
  · intro hnot hj hi
    exact hnot j hj i hi ⟨rfl, rfl⟩
  · rintro hnot a ha b hb ⟨rfl, rfl⟩
    exact hnot ha hb

theorem mem_flatten_collect (hi : i < n) : i ∈ (collect conflict n).flatten := by
  obtain ⟨h, hh, hmem⟩ := exists_group hi
  rw [collect_eq]
  exact mem_flatten.mpr ⟨_, mem_map_of_mem hh, hmem⟩

theorem lone_opener (hi : [i] ∈ collect conflict n) :
    i < n ∧ ∀ j, i < j → j < n → conflict i j = false := by
  rw [collect_eq] at hi
  obtain ⟨h, hh, hgrp⟩ := mem_map.mp hi
  obtain rfl : h = i := (cons.inj hgrp).1
  refine ⟨lt_of_mem_openers hh, fun j hij hj => Bool.eq_false_iff.mpr fun hcfl => ?_⟩
  have hmem : j ∈ group conflict n h := mem_group.mpr (.inr ⟨hij, hj, hcfl⟩)
  rw [hgrp, mem_singleton] at hmem
  exact ne_of_gt hij hmem

def Unshared (conflict : Nat → Nat → Bool) (n : Nat) : Prop :=
  ∀ h ∈ openers conflict n, ∀ h' ∈ openers conflict n, h < h' →
    ∀ i, h' < i → i < n → conflict h i = true → conflict h' i = false

theorem mem_flatten_collect_iff : i ∈ (collect conflict n).flatten ↔ i < n := by
  refine ⟨fun hmem => ?_, mem_flatten_collect⟩
  rw [collect_eq] at hmem
  obtain ⟨g, hg, hi⟩ := mem_flatten.mp hmem
  obtain ⟨h, hh, rfl⟩ := mem_map.mp hg
  rcases mem_group.mp hi with rfl | ⟨-, hi, -⟩
  · exact lt_of_mem_openers hh
  · exact hi

theorem nodup_flatten_collect_iff : (collect conflict n).flatten.Nodup ↔ Unshared conflict n := by
  have hgro : ∀ g ∈ collect conflict n, g.Nodup := by
    intro g hg
    rw [collect_eq] at hg
    obtain ⟨h, -, rfl⟩ := mem_map.mp hg
    exact pairwise_group.imp ne_of_lt
  rw [nodup_flatten, and_iff_right hgro, collect_eq, pairwise_map,
    pairwise_iff_of_lt pairwise_openers]
  refine forall₂_congr fun h hh => forall₂_congr fun h' hh' => forall_congr' fun hlt => ?_
  constructor
  · intro hdis i hi hn hcfl
    refine Bool.eq_false_iff.mpr fun hcfl' => ?_
    exact hdis (mem_group.mpr (.inr ⟨hlt.trans hi, hn, hcfl⟩))
      (mem_group.mpr (.inr ⟨hi, hn, hcfl'⟩))
  · intro huns i hi hi'
    rcases mem_group.mp hi' with rfl | ⟨hlt', hn, hcfl'⟩
    · -- an opener is not in an earlier group
      rcases mem_group.mp hi with rfl | ⟨-, -, hcfl⟩
      · exact lt_irrefl _ hlt
      · rw [(mem_openers.mp hh').2 h hh hlt] at hcfl
        cases hcfl
    · rcases mem_group.mp hi with rfl | ⟨-, -, hcfl⟩
      · exact Nat.lt_asymm hlt hlt'
      · rw [huns i hlt' hn hcfl] at hcfl'
        cases hcfl'

theorem perm_flatten_collect_iff :
    (collect conflict n).flatten.Perm (range n) ↔ Unshared conflict n := by
  rw [← nodup_flatten_collect_iff]
  refine ⟨fun hperm => hperm.nodup_iff.mpr nodup_range, fun hnd => ?_⟩
  refine (perm_ext_iff_of_nodup hnd nodup_range).mpr fun i => ?_
  rw [mem_flatten_collect_iff, mem_range]

theorem length_group_eq_one :
    (group conflict n h).length = 1 ↔ ∀ j, h < j → j < n → conflict h j = false := by
  rw [group, length_cons, Nat.add_eq_right, length_eq_zero_iff, filter_eq_nil_iff]
  refine forall_congr' fun j => ?_
  rw [mem_range'_1, Bool.not_eq_true]
  constructor
  · intro hfree hlt hj
    exact hfree ⟨hlt, by omega⟩
  · intro hfree hj
    exact hfree hj.1 (by omega)

theorem perm_flatten_lone_iff :
    ((collect conflict n).filter (·.length = 1)).flatten.Perm (range n) ↔
      ∀ i j, i < j → j < n → conflict i j = false := by
  constructor
  · intro hperm
    -- an opener stands in its own group only, so this group is one of those kept
    have hlone : ∀ h ∈ openers conflict n, ∀ j, h < j → j < n → conflict h j = false := by
      intro h hh
      have hmem := hperm.mem_iff.mpr (mem_range.mpr (lt_of_mem_openers hh))
      obtain ⟨g, hg, hhg⟩ := mem_flatten.mp hmem
      obtain ⟨hg, hlen⟩ := mem_filter.mp hg
      obtain ⟨a, rfl⟩ := length_eq_one_iff.mp (of_decide_eq_true hlen)
      rw [← mem_singleton.mp hhg] at hg
      exact (lone_opener hg).2
    intro i j hij hj
    have hi := hij.trans hj
    refine hlone i (mem_openers.mpr ⟨hi, fun h hh hlt => ?_⟩) j hij hj
    exact hlone h hh i hlt hi
  · intro hfree
    have hall : (collect conflict n).filter (·.length = 1) = collect conflict n := by
      rw [filter_eq_self, collect_eq]
      intro g hg
      obtain ⟨h, -, rfl⟩ := mem_map.mp hg
      exact decide_eq_true (length_group_eq_one.mpr fun j => hfree h j)
    rw [hall, perm_flatten_collect_iff]
    intro h _ h' _ hlt i hi hn hcfl
    exact hfree h' i hi hn

end Greedy
