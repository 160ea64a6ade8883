import Mathlib.Algebra.BigOperators.Intervals
import Mathlib.Algebra.Order.BigOperators.Group.Finset
import Mathlib.Algebra.Order.Ring.Nat

/-!
# The exponential series in integers

`factor * e ^ (num / den)` as a sum of Taylor terms, each scaled by `den`
and rounded down, so that from some index on all of them are zero. `Loop` is the loop that adds the
terms up until it meets a zero; it runs on unbounded integers and stops for every numerator
(`evaluates_iff`).
-/

namespace ExpSeries

open Finset

section
variable (factor num den : Nat)

def term : Nat → Nat
  | 0 => factor * den
  | i + 1 => term i * num / (den * (i + 1))

def sum (n : Nat) : Nat := ∑ i ∈ Finset.range n, term factor num den i

/-- `while accum > 0`, from the state `i`, `output`, `accum` to the final output. -/
inductive Loop : Nat → Nat → Nat → Nat → Prop where
  | done (i output : Nat) : Loop i output 0 output
  | turn {i output accum result : Nat} : 0 < accum →
    Loop (i + 1) (output + accum) (accum * num / (den * i)) result →
    Loop i output accum result

def Evaluates (result : Nat) : Prop :=
  ∃ output, Loop num den 1 0 (factor * den) output ∧
    result = output / den

end

@[simp] theorem sum_zero : sum factor num den 0 = 0 := rfl

theorem sum_succ : sum factor num den (n + 1) = sum factor num den n + term factor num den n :=
  sum_range_succ _ n

theorem sum_add : sum factor num den (m + n) =
    sum factor num den m +
      ∑ i ∈ Finset.range n, term factor num den (m + i) :=
  sum_range_add _ m n

theorem sum_mono (h : m ≤ n) : sum factor num den m ≤ sum factor num den n :=
  sum_le_sum_of_subset (range_subset_range.mpr h)

theorem term_le_term (h : num ≤ numerator') :
    term factor num den i ≤ term factor numerator' den i := by
  induction i with
  | zero => exact le_refl _
  | succ i ih => exact Nat.div_le_div_right (Nat.mul_le_mul ih h)

theorem sum_le_sum (h : num ≤ numerator') : sum factor num den n ≤ sum factor numerator' den n :=
  Finset.sum_le_sum fun _ _ => term_le_term h

theorem le_sum_div (hd : 0 < den) (hn : 0 < n) : factor ≤ sum factor num den n / den := by
  rw [Nat.le_div_iff_mul_le hd]
  calc factor * den = sum factor num den 1 := by
        rw [sum_succ, sum_zero, zero_add, term]
    _ ≤ sum factor num den n := sum_mono hn

theorem term_eq_zero_of_le (h : term factor num den m = 0)
    (hle : m ≤ n) : term factor num den n = 0 := by
  induction n, hle using Nat.le_induction with
  | base => exact h
  | succ n _ ih => rw [term, ih, zero_mul, Nat.zero_div]

theorem term_succ_lt (hd : 0 < den) (hi : num ≤ i) (hpos : 0 < term factor num den i) :
    term factor num den (i + 1) < term factor num den i := by
  have hlt : num < den * (i + 1) :=
    calc num < i + 1 := Nat.lt_succ_of_le hi
      _ ≤ den * (i + 1) := Nat.le_mul_of_pos_left _ hd
  rw [term, Nat.div_lt_iff_lt_mul (Nat.zero_lt_of_lt hlt)]
  exact Nat.mul_lt_mul_of_pos_left hlt hpos

theorem exists_term_eq_zero (hd : 0 < den) : ∃ n, term factor num den n = 0 := by
  have hbd : ∀ k, term factor num den (num + k) ≤
      term factor num den num - k := by
    intro k
    induction k with
    | zero => exact le_refl _
    | succ k ih =>
      rw [← add_assoc]
      rcases Nat.eq_zero_or_pos (term factor num den (num + k)) with h | h
      · rw [term_eq_zero_of_le h (Nat.le_succ _)]
        exact Nat.zero_le _
      · have := term_succ_lt hd (Nat.le_add_right num k) h
        omega
  refine ⟨num + term factor num den num, Nat.le_zero.mp ?_⟩
  have := hbd (term factor num den num)
  rwa [Nat.sub_self] at this

theorem sum_le_of_term_eq_zero (h : term factor num den m = 0) :
    sum factor num den n ≤ sum factor num den m := by
  rcases Nat.le_total n m with hle | hle
  · exact sum_mono hle
  · obtain ⟨k, rfl⟩ := Nat.exists_eq_add_of_le hle
    rw [sum_add, sum_eq_zero fun i _ => term_eq_zero_of_le h (Nat.le_add_right m i), add_zero]

theorem loop_iff : Loop num den (k + 1) (sum factor num den k)
        (term factor num den k) output ↔
      ∃ n, k ≤ n ∧ term factor num den n = 0 ∧
        output = sum factor num den n := by
  constructor
  · generalize hi : k + 1 = i
    generalize ho : sum factor num den k = start
    generalize ha : term factor num den k = accum
    intro h
    induction h generalizing k with
    | done => exact ⟨k, le_refl k, ha, ho.symm⟩
    | turn _ _ ih =>
      subst hi ho ha
      obtain ⟨n, hle, hn⟩ := ih rfl sum_succ rfl
      exact ⟨n, Nat.le_of_succ_le hle, hn⟩
  · rintro ⟨n, hle, hzero, rfl⟩
    induction hle using Nat.decreasingInduction with
    | self =>
      rw [hzero]
      exact .done ..
    | of_succ k hlt ih =>
      rcases Nat.eq_zero_or_pos (term factor num den k) with h | h
      · -- the loop stops before `n`, but nothing is missing
        have hsum : sum factor num den n = sum factor num den k :=
          le_antisymm (sum_le_of_term_eq_zero h) (sum_mono (le_of_lt hlt))
        rw [h, hsum]
        exact .done ..
      · refine .turn h ?_
        rw [← sum_succ]
        exact ih

theorem evaluates_iff : Evaluates factor num den res ↔
      ∃ n, term factor num den n = 0 ∧
        res = sum factor num den n / den := by
  have hloop : ∀ output, Loop num den 1 0 (factor * den) output ↔
      ∃ n, 0 ≤ n ∧ term factor num den n = 0 ∧ output = sum factor num den n := fun _ => loop_iff
  constructor
  · rintro ⟨output, h, rfl⟩
    obtain ⟨n, -, hzero, rfl⟩ := (hloop output).mp h
    exact ⟨n, hzero, rfl⟩
  · rintro ⟨n, hzero, rfl⟩
    exact ⟨_, (hloop _).mpr ⟨n, Nat.zero_le n, hzero, rfl⟩, rfl⟩

theorem evaluates_sum_iff (hd : 0 < den) :
    Evaluates factor num den (sum factor num den m / den) ↔
      ∀ n, m ≤ n → sum factor num den n / den =
        sum factor num den m / den := by
  rw [evaluates_iff]
  constructor
  · rintro ⟨last, hzero, hsum⟩ n hle
    refine le_antisymm ?_ (Nat.div_le_div_right (sum_mono hle))
    rw [hsum]
    exact Nat.div_le_div_right (sum_le_of_term_eq_zero hzero)
  · intro h
    obtain ⟨n, hzero⟩ := exists_term_eq_zero hd
    have hle := le_max_left m n
    exact ⟨max m n, term_eq_zero_of_le hzero (le_max_right m n), (h _ hle).symm⟩

end ExpSeries
