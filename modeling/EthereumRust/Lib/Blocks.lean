import Mathlib.Data.List.Basic

/-!
# Lists made of blocks

`forall₂_of_flatMap_eq`: what the concatenation of blocks says about them. `chunk`: a list cut into
blocks, and `flatMap_chunk`: the blocks put together again.
-/

namespace Blocks

open List

variable {α γ V : Type} {f : α → List γ}

/-- Concatenations of blocks are equal block by block, if the blocks have the same lengths. -/
theorem forall₂_of_flatMap_eq {l : List α} {l' : List V} {f' : V → List γ}
    (hlen : Forall₂ (fun a b => (f a).length = (f' b).length) l l')
    (h : l.flatMap f = l'.flatMap f') : Forall₂ (fun a b => f a = f' b) l l' := by
  induction hlen with
  | nil => exact .nil
  | cons hab _ ih =>
    obtain ⟨hab, h⟩ := append_inj h hab
    exact .cons hab (ih h)

def chunk (l : List α) (size i : Nat) : List α := (l.drop (i * size)).take size

theorem flatMap_chunk (l : List α) (size n : Nat) :
    (range n).flatMap (chunk l size) = l.take (n * size) := by
  induction n with
  | zero => simp
  | succ n ih =>
    rw [range_succ, flatMap_append, ih, flatMap_singleton, chunk, Nat.succ_mul, take_add]

def chunks (size : Nat) (l : List α) : List (List α) :=
  (List.range ((l.length + size - 1) / size)).map (chunk l size)

theorem flatten_chunks (hsize : 0 < size) (l : List α) : (chunks size l).flatten = l := by
  have hle : l.length ≤ (l.length + size - 1) / size * size := by
    have hdiv := Nat.div_add_mod (l.length + size - 1) size
    have hmod := Nat.mod_lt (l.length + size - 1) hsize
    rw [Nat.mul_comm] at hdiv
    omega
  have hfla := flatMap_chunk l size ((l.length + size - 1) / size)
  rw [flatMap_def] at hfla
  rw [chunks, hfla, take_of_length_le hle]

theorem chunks_eq_cons (hsize : 0 < size) {l : List α} (h : l ≠ []) :
    ∃ rest, chunks size l = l.take size :: rest := by
  have hlen := length_pos_iff.mpr h
  have hcnt : 0 < (l.length + size - 1) / size := Nat.div_pos (by omega) hsize
  obtain ⟨count, hcnt⟩ := Nat.exists_eq_succ_of_ne_zero (Nat.ne_of_gt hcnt)
  refine ⟨(range' 1 count).map (chunk l size), ?_⟩
  rw [chunks, hcnt, range_eq_range', range'_succ, map_cons, chunk, Nat.zero_mul, drop_zero]

end Blocks
