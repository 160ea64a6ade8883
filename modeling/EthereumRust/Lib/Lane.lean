import Mathlib.Data.List.Chain
import Mathlib.Data.List.Infix
import Mathlib.Data.List.Perm.Basic
import Mathlib.Data.List.Nodup

/-!
# Lanes of numbered items

A lane holds items that carry a number. The pending ones stand in line; the queued ones wait for
their number to come up. An item that carries the number after the last pending one joins the line,
and one pass over the queue lets those follow whose number comes up during the pass.
-/

structure Lane (α : Type) where
  pending : List α
  queued : List α
  deriving DecidableEq

namespace Lane

open List

variable {α : Type}

def items (l : Lane α) : List α := l.pending ++ l.queued

def retain (p : α → Bool) (l : Lane α) : Lane α := ⟨l.pending.filter p, l.queued.filter p⟩

theorem items_retain (l : Lane α) : (l.retain p).items = l.items.filter p :=
  (filter_append _ _).symm

theorem retain_congr {l : Lane α} (h : ∀ a ∈ l.items, p a = p' a) : l.retain p = l.retain p' := by
  have hpnd := filter_congr fun a ha => h a (mem_append_left _ ha)
  have hq := filter_congr fun a ha => h a (mem_append_right _ ha)
  rw [retain, retain, hpnd, hq]

theorem retain_true (l : Lane α) : l.retain (fun _ => true) = l := by
  rw [retain, filter_true, filter_true]

theorem retain_eq_self {l : Lane α} (h : ∀ a ∈ l.items, p a = true) : l.retain p = l :=
  (retain_congr h).trans (retain_true l)

theorem retain_retain (l : Lane α) : (l.retain p).retain p' = l.retain fun a => p' a && p a := by
  rw [retain, retain, retain, filter_filter, filter_filter]

section
variable (n : α → Nat)

def next (l : Lane α) : Nat :=
  match l.pending.getLast? with
  | some a => n a + 1
  | none => 0

/-- One pass over a queue that takes out an item whenever its number comes up, from `e` on. The
items that stay come first, those taken out second. -/
def sift (e : Nat) : List α → List α × List α
  | [] => ([], [])
  | a :: q =>
    if n a = e then ((sift (e + 1) q).1, a :: (sift (e + 1) q).2)
    else (a :: (sift e q).1, (sift e q).2)

def arrive (l : Lane α) (a : α) : Option (Lane α) :=
  if n a = l.next n then
    some ⟨l.pending ++ a :: (sift n (n a + 1) l.queued).2, (sift n (n a + 1) l.queued).1⟩
  else if l.next n < n a then some ⟨l.pending, l.queued ++ [a]⟩
  else none

end

section
variable {l l' : Lane α} {e : Nat} {q : List α} {p : α → Bool}

theorem sift_perm : ((sift n e q).1 ++ (sift n e q).2).Perm q := by
  induction q generalizing e with
  | nil => exact .nil
  | cons a q ih =>
    rw [sift]
    split_ifs
    · exact perm_middle.trans (.cons a ih)
    · exact .cons a ih

theorem sift_fst_sublist : (sift n e q).1.Sublist q := by
  induction q generalizing e with
  | nil => exact .slnil
  | cons a q ih =>
    rw [sift]
    split_ifs
    · exact .cons a ih
    · exact .cons_cons a ih

theorem sift_snd_sublist : (sift n e q).2.Sublist q := by
  induction q generalizing e with
  | nil => exact .slnil
  | cons a q ih =>
    rw [sift]
    split_ifs
    · exact .cons_cons a ih
    · exact .cons a ih

theorem map_sift_snd : (sift n e q).2.map n = range' e (sift n e q).2.length := by
  induction q generalizing e with
  | nil => rfl
  | cons a q ih =>
    rw [sift]
    split_ifs with h
    · rw [map_cons, length_cons, range'_succ, ih, h]
    · exact ih

theorem le_length_sift (h : (range' e m).Sublist (q.map n)) : m ≤ (sift n e q).2.length := by
  induction q generalizing e m with
  | nil =>
    rw [map_nil, sublist_nil, range'_eq_nil_iff] at h
    omega
  | cons a q ih =>
    cases m with
    | zero => exact Nat.zero_le _
    | succ m =>
      rw [map_cons] at h
      rw [sift]
      split_ifs with hae
      · rw [hae] at h
        exact Nat.succ_le_succ (ih (cons_sublist_cons.mp h))
      · cases h with
        | cons _ h => exact ih (range'_succ ▸ h)
        | cons_cons => exact absurd rfl hae

theorem length_sift_le (h : e + m ∉ q.map n) : (sift n e q).2.length ≤ m := by
  by_contra hlt
  have hmem : e + m ∈ (sift n e q).2.map n := by
    rw [map_sift_snd, mem_range'_1]
    omega
  obtain ⟨b, hb, hnb⟩ := mem_map.mp hmem
  exact h (mem_map.mpr ⟨b, sift_perm.mem_iff.mp (mem_append_right _ hb), hnb⟩)

theorem length_sift (h : (range' e m).Sublist (q.map n)) (hlast : e + m ∉ q.map n) :
    (sift n e q).2.length = m :=
  le_antisymm (length_sift_le hlast) (le_length_sift h)

theorem arrive_cases (h : l.arrive n a = some l') :
    (n a = l.next n ∧
      l' = ⟨l.pending ++ a :: (sift n (n a + 1) l.queued).2, (sift n (n a + 1) l.queued).1⟩) ∨
    (l.next n < n a ∧ l' = ⟨l.pending, l.queued ++ [a]⟩) := by
  rw [arrive] at h
  split_ifs at h with heq hlt
  · exact .inl ⟨heq, (Option.some.inj h).symm⟩
  · exact .inr ⟨hlt, (Option.some.inj h).symm⟩

theorem arrive_isSome_iff : (l.arrive n a).isSome ↔ l.next n ≤ n a := by
  rw [arrive]
  split_ifs with heq hlt
  · simp [heq]
  · simp [le_of_lt hlt]
  · simp only [Option.isSome_none, Bool.false_eq_true, false_iff]
    omega

theorem next_le_of_arrive (h : l.arrive n a = some l') : l.next n ≤ n a :=
  arrive_isSome_iff.mp (h ▸ rfl)

theorem perm_of_arrive (h : l.arrive n a = some l') : l'.items.Perm (a :: l.items) := by
  rcases arrive_cases h with ⟨-, rfl⟩ | ⟨-, rfl⟩
  · rw [items, append_assoc]
    refine perm_middle.trans (.cons a (.append_left _ ?_))
    exact perm_append_comm.trans sift_perm
  · rw [items, ← append_assoc]
    exact perm_append_singleton a _

theorem next_concat : next n ⟨line ++ [a], q⟩ = n a + 1 := by
  rw [next, getLast?_concat]

theorem next_cases : (l.pending = [] ∧ l.next n = 0) ∨
    ∃ line c, l.pending = line ++ [c] ∧ l.next n = n c + 1 := by
  rcases eq_nil_or_concat' l.pending with hnil | ⟨line, c, hc⟩
  · refine .inl ⟨hnil, ?_⟩
    rw [next, hnil, getLast?_nil]
  · refine .inr ⟨line, c, hc, ?_⟩
    rw [next, hc, getLast?_concat]

theorem next_of_map_concat {numbers : List Nat} (h : l.pending.map n = numbers ++ [m]) :
    l.next n = m + 1 := by
  rcases next_cases with ⟨hnil, -⟩ | ⟨line, c, hc, hnext⟩
  · rw [hnil] at h
    exact absurd h.symm (append_ne_nil_of_right_ne_nil _ (cons_ne_nil _ _))
  · rw [hc, map_append, map_singleton] at h
    obtain ⟨-, hm⟩ := append_inj' h rfl
    rw [hnext, singleton_inj.mp hm]

theorem map_line : (a :: (sift n (n a + 1) q).2).map n =
    range' (n a) (sift n (n a + 1) q).2.length ++ [n a + (sift n (n a + 1) q).2.length] := by
  rw [map_cons, map_sift_snd, ← range'_succ, range'_1_concat]

theorem next_arrive :
    next n ⟨l.pending ++ a :: (sift n (n a + 1) q).2, (sift n (n a + 1) q).1⟩ =
      n a + (sift n (n a + 1) q).2.length + 1 := by
  apply next_of_map_concat
  rw [map_append, map_line, ← append_assoc]

def Rising (n : α → Nat) (l : Lane α) : Prop := (l.pending.map n).Pairwise (· < ·)

theorem Rising.lt_next (H : l.Rising n) : ∀ b ∈ l.pending, n b < l.next n := by
  intro b hb
  rcases next_cases with ⟨hnil, -⟩ | ⟨line, c, hc, hnext⟩
  · rw [hnil] at hb
    cases hb
  · rw [Rising, hc, map_append, pairwise_append] at H
    rw [hc] at hb
    rw [hnext]
    rcases mem_append.mp hb with hb | hb
    · exact Nat.lt_succ_of_lt (H.2.2 _ (mem_map_of_mem hb) _ (mem_singleton_self _))
    · rw [mem_singleton.mp hb]
      exact Nat.lt_succ_self _

theorem rising_nil : Rising n ⟨[], q⟩ := .nil

theorem Rising.retain (H : l.Rising n) : (l.retain p).Rising n :=
  List.Pairwise.sublist (filter_sublist.map n) H

theorem Rising.arrive (H : l.Rising n) (h : l.arrive n a = some l') : l'.Rising n := by
  rcases arrive_cases h with ⟨heq, rfl⟩ | ⟨-, rfl⟩
  · rw [Rising, map_append, pairwise_append]
    refine ⟨H, ?_, ?_⟩
    · rw [map_line, ← range'_1_concat]
      exact pairwise_lt_range'
    · intro x hx y hy
      rw [map_line, ← range'_1_concat, mem_range'_1] at hy
      obtain ⟨b, hb, rfl⟩ := mem_map.mp hx
      have := H.lt_next b hb
      omega
  · exact H

theorem Rising.next_retain_le (H : l.Rising n) : (l.retain p).next n ≤ l.next n := by
  rcases next_cases with ⟨-, hzero⟩ | ⟨line, c, hc, hnext⟩
  · rw [hzero]
    exact Nat.zero_le _
  · have hmem : c ∈ (l.retain p).pending := by
      rw [hc]
      exact mem_append_right _ (mem_singleton_self _)
    rw [hnext]
    exact H.lt_next c (mem_of_mem_filter hmem)

/-- The numbers go up by one. -/
def Consecutive (n : α → Nat) (line : List α) : Prop := (line.map n).IsChain fun x y => y = x + 1

theorem consecutive_cons (h : Consecutive n (a :: line)) :
    Consecutive n line ∧ ∀ b ∈ line, n a < n b := by
  refine ⟨h.tail, fun b hb => ?_⟩
  have hlt := h.imp (S := fun x y => x < y) fun x y hxy => by omega
  exact (pairwise_cons.mp (isChain_iff_pairwise.mp hlt)).1 _ (mem_map_of_mem hb)

theorem consecutive_head (h : Consecutive n (a :: b :: line)) : n b = n a + 1 := by
  rw [Consecutive, map_cons, map_cons, isChain_cons_cons] at h
  exact h.1

theorem prefix_of_sublist {line part : List α} (hline : Consecutive n (a :: line))
    (hpart : Consecutive n (a :: part)) (h : part.Sublist line) : part <+: line := by
  induction line generalizing a part with
  | nil => rw [sublist_nil.mp h]
  | cons b line ih =>
    cases part with
    | nil => exact nil_prefix
    | cons c part =>
      have hbc : n c = n b := (consecutive_head hpart).trans (consecutive_head hline).symm
      have hline' := (consecutive_cons hline).1
      cases h with
      | cons _ h =>
        have := (consecutive_cons hline').2 c (h.subset mem_cons_self)
        omega
      | cons_cons _ h =>
        exact (prefix_cons_inj _).mpr (ih hline' (consecutive_cons hpart).1 h)

theorem infix_of_sublist (hline : Consecutive n line)
    (hpart : Consecutive n part) (h : part.Sublist line) : part <:+: line := by
  induction h with
  | slnil => exact infix_refl _
  | cons b _ ih =>
    exact (ih (consecutive_cons hline).1 hpart).trans (infix_cons (infix_refl _))
  | cons_cons b h _ =>
    exact ((prefix_cons_inj b).mpr (prefix_of_sublist hline hpart h)).isInfix

theorem consecutive_filter_iff (hline : Consecutive n line) :
    Consecutive n (line.filter p) ↔ line.filter p <:+: line := by
  constructor
  · intro hpart
    exact infix_of_sublist hline hpart filter_sublist
  · intro h
    exact List.IsChain.infix hline (h.map n)

theorem consecutive_arrive (hline : Consecutive n l.pending) (h : l.arrive n a = some l') :
    Consecutive n l'.pending := by
  rcases arrive_cases h with ⟨heq, rfl⟩ | ⟨-, rfl⟩
  · rw [Consecutive, map_append, isChain_append, map_line, ← range'_1_concat]
    refine ⟨hline, isChain_range' _ _ _, fun x hx y hy => ?_⟩
    rw [range'_succ] at hy
    obtain rfl := Option.mem_some_iff.mp hy
    rcases next_cases with ⟨hnil, -⟩ | ⟨line, c, hc, hnext⟩
    · rw [hnil] at hx
      cases hx
    · rw [hc, map_append, map_singleton, getLast?_concat] at hx
      rw [heq, hnext, Option.mem_some_iff.mp hx]
  · exact hline

theorem consecutive_arrive_iff (h : l.arrive n a = some l') :
    Consecutive n l'.pending ↔ Consecutive n l.pending := by
  refine ⟨fun hline => ?_, fun hline => consecutive_arrive hline h⟩
  rcases arrive_cases h with ⟨-, rfl⟩ | ⟨-, rfl⟩
  · exact List.IsChain.infix hline ((prefix_append ..).isInfix.map n)
  · exact hline

/-- No number occurs twice in the lane. -/
def Distinct (n : α → Nat) (l : Lane α) : Prop := (l.items.map n).Nodup

theorem Distinct.retain (H : l.Distinct n) : (l.retain p).Distinct n := by
  rw [Distinct, items_retain]
  exact H.sublist (filter_sublist.map n)

theorem Rising.distinct_iff (H : l.Rising n) (h : l.arrive n a = some l') :
    l'.Distinct n ↔ l.Distinct n ∧ n a ∉ l.queued.map n := by
  have hnext := next_le_of_arrive h
  have hpnd : n a ∉ l.pending.map n := by
    intro hmem
    obtain ⟨b, hb, hba⟩ := mem_map.mp hmem
    have := H.lt_next b hb
    omega
  rw [Distinct, ((perm_of_arrive h).map n).nodup_iff, map_cons, nodup_cons, Distinct,
    items, map_append, mem_append]
  simp only [hpnd, false_or, and_comm]

def Ready (n : α → Nat) (l : Lane α) : Prop := l.next n ∈ l.queued.map n

structure Ahead (n : α → Nat) (l : Lane α) : Prop where
  above : ∀ b ∈ l.queued, l.next n < n b
  nodup : (l.queued.map n).Nodup

def InOrder (n : α → Nat) (e : Nat) (q : List α) : Prop :=
  ∃ m, (List.range' (e + 1) m).Sublist (q.map n) ∧ e + 1 + m ∉ q.map n

theorem Ahead.not_ready (H : l.Ahead n) : ¬l.Ready n := by
  intro h
  obtain ⟨b, hb, hnext⟩ := mem_map.mp h
  exact absurd (H.above b hb) (not_lt.mpr (le_of_eq hnext))

theorem Ahead.retain (H : l.Ahead n) (hris : l.Rising n) : (l.retain p).Ahead n where
  above b hb := lt_of_le_of_lt hris.next_retain_le (H.above b (mem_of_mem_filter hb))
  nodup := H.nodup.sublist (filter_sublist.map n)

theorem Ahead.arrive (H : l.Ahead n) (h : l.arrive n a = some l')
    (hnew : l.next n < n a → n a ∉ l.queued.map n)
    (hord : n a = l.next n → InOrder n (n a) l.queued) : l'.Ahead n := by
  rcases arrive_cases h with ⟨heq, rfl⟩ | ⟨hlt, rfl⟩
  · obtain ⟨m, hm, hlast⟩ := hord heq
    refine ⟨fun b hb => ?_, H.nodup.sublist (sift_fst_sublist.map n)⟩
    have hq : b ∈ l.queued := sift_fst_sublist.subset hb
    have hne : n b ≠ n a + 1 + m := by
      intro hba
      exact hlast (mem_map.mpr ⟨b, hq, hba⟩)
    -- what stays does not repeat a number that came up
    have hnot : n b ∉ (sift n (n a + 1) l.queued).2.map n := by
      have hperm := (sift_perm (n := n) (e := n a + 1) (q := l.queued)).map n
      have hnd := hperm.nodup_iff.mpr H.nodup
      rw [map_append] at hnd
      exact fun hmem => disjoint_of_nodup_append hnd (mem_map_of_mem hb) hmem
    rw [map_sift_snd, length_sift hm hlast, mem_range'_1] at hnot
    have := H.above b hq
    rw [next_arrive, length_sift hm hlast]
    omega
  · have hnext : next n ⟨l.pending, l.queued ++ [a]⟩ = l.next n := rfl
    refine ⟨fun b hb => ?_, ?_⟩
    · rw [hnext]
      rcases mem_append.mp hb with hb | hb
      · exact H.above b hb
      · rw [mem_singleton.mp hb]
        exact hlt
    · rw [map_append, map_singleton, nodup_append_comm, singleton_append, nodup_cons]
      exact ⟨hnew hlt, H.nodup⟩

theorem inOrder_of_not_ready (heq : n a = l.next n) (h : l.arrive n a = some l')
    (hrdy : ¬l'.Ready n) : InOrder n (n a) l.queued := by
  rcases arrive_cases h with ⟨-, rfl⟩ | ⟨hlt, -⟩
  · rw [Ready, next_arrive, Nat.add_right_comm] at hrdy
    refine ⟨(sift n (n a + 1) l.queued).2.length, ?_, fun hmem => ?_⟩
    · rw [← map_sift_snd]
      exact sift_snd_sublist.map n
    · have hperm := (sift_perm (n := n) (e := n a + 1) (q := l.queued)).map n
      rw [← hperm.mem_iff, map_append, mem_append, map_sift_snd, mem_range'_1] at hmem
      rcases hmem with hmem | hmem
      · exact hrdy hmem
      · omega
  · omega

theorem Ahead.not_ready_iff (H : l.Ahead n) (h : l.arrive n a = some l') :
    ¬l'.Ready n ↔ (n a = l.next n → InOrder n (n a) l.queued) := by
  refine ⟨fun hrdy heq => inOrder_of_not_ready heq h hrdy, fun hord => ?_⟩
  rcases arrive_cases h with ⟨heq, -⟩ | ⟨hlt, rfl⟩
  · exact (H.arrive h (fun hlt => absurd heq (ne_of_gt hlt)) hord).not_ready
  · intro hmem
    rw [Ready, map_append, mem_append, map_singleton, mem_singleton] at hmem
    rcases hmem with hmem | heq
    · exact H.not_ready hmem
    · exact ne_of_lt hlt heq

end

end Lane
