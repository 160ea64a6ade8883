import Mathlib.Data.List.Infix

/-!
# Maps from words

A tree over an alphabet stands for a map from words to values. `under stem` puts a path in front of
a map, `fork` joins the maps behind the letters of an alphabet.
-/

namespace WordMap

open List Function

variable {α V : Type}

theorem exists_divergence {as bs : List α} (h : ¬as <+: bs) (hlen : as.length ≤ bs.length) :
    ∃ p a as' b bs', as = p ++ a :: as' ∧ bs = p ++ b :: bs' ∧ a ≠ b := by
  induction as generalizing bs with
  | nil => exact absurd nil_prefix h
  | cons a as ih =>
    cases bs with
    | nil => simp at hlen
    | cons b bs =>
      by_cases hab : a = b
      · subst hab
        rw [cons_prefix_cons, and_iff_right rfl] at h
        obtain ⟨p, a', as', b', bs', rfl, rfl, hne⟩ := ih h (Nat.le_of_succ_le_succ hlen)
        exact ⟨a :: p, a', as', b', bs', rfl, rfl, hne⟩
      · exact ⟨[], a, as, b, bs, rfl, rfl, hab⟩

def void : List α → Option V := fun _ => none

def under [DecidableEq α] (stem : List α) (m : List α → Option V) : List α → Option V := fun key =>
  if stem <+: key then m (key.drop stem.length) else none

def fork (value : Option V) (edges : α → List α → Option V) : List α → Option V
  | [] => value
  | a :: key => edges a key

variable [DecidableEq α]

def only (v : V) : List α → Option V := Function.update void [] (some v)

section
variable {m : List α → Option V}

theorem under_append_apply : under stem m (stem ++ key) = m key := by
  simp [under]

theorem under_eq_none (h : ¬stem <+: key) : under stem m key = none := if_neg h

@[simp] theorem under_void : under stem (void : List α → Option V) = void := by
  funext key
  exact ite_self none

theorem under_update (m : List α → Option V) :
    under stem (update m key v) = update (under stem m) (stem ++ key) v := by
  funext key'
  by_cases h : stem <+: key'
  · obtain ⟨rest, rfl⟩ := h
    simp only [update_apply, under_append_apply, append_cancel_left_eq]
  · have hne : key' ≠ stem ++ key := by
      rintro rfl
      exact h (prefix_append ..)
    rw [update_of_ne hne, under_eq_none h, under_eq_none h]

theorem under_only (key : List α) : under key (only v) = update void key (some v) := by
  rw [only, under_update, under_void, append_nil]

omit [DecidableEq α] in
theorem fork_void : fork none (fun _ : α => void) = (void : List α → Option V) := by
  funext key
  cases key with
  | nil => rfl
  | cons => rfl

theorem fork_update (value : Option V) (key : List α) :
    fork value (update edges a (update (edges a) key v)) =
      update (fork value edges) (a :: key) v := by
  funext key'
  cases key' with
  | nil => rw [update_of_ne (by simp)]; rfl
  | cons b key' =>
    by_cases h : b = a
    · subst h
      simp [fork, update_apply]
    · simp [fork, h]

theorem under_cons : under (a :: stem) m = fork none (update (fun _ => void) a (under stem m)) := by
  funext key
  cases key with
  | nil => simp [under, fork]
  | cons b key =>
    by_cases h : b = a
    · subst h
      simp [under, fork, cons_prefix_cons]
    · simp [under, fork, cons_prefix_cons, h, Ne.symm h, void]

theorem under_append : under (p ++ q) m = under p (under q m) := by
  funext key
  by_cases h : p <+: key
  · obtain ⟨rest, rfl⟩ := h
    have hdrop : (p ++ rest).drop (p ++ q).length = rest.drop q.length := by
      rw [length_append, ← drop_drop, drop_left]
    rw [under_append_apply, under, hdrop]
    simp only [prefix_append_right_inj]
    rfl
  · rw [under_eq_none h, under_eq_none fun hpq => h ((prefix_append ..).trans hpq)]

theorem under_fork (hne : a ≠ b) (p : List α) (m : List α → Option V) :
    under p (fork none (update (update (fun _ => void) a (under old m)) b
      (under new (only v)))) =
        update (under (p ++ a :: old) m) (p ++ b :: new) (some v) := by
  have hb : update (fun _ => void) a (under old m) b = void := update_of_ne hne.symm ..
  rw [under_only]
  nth_rewrite 2 [← hb]
  rw [fork_update, ← under_cons, under_update, under_append]

end

end WordMap
