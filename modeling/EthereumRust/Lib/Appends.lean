import Mathlib.Data.List.Nodup
import Mathlib.Data.Set.Basic

/-!
# Computations that append to a list

An `Appender` works on a list and can fail. The list then has what was appended before it failed.
`Adds key S done m` says that what `m` appends has different keys, those in `S`, whether it fails or
not, and that it completes if and only if `done`.
-/

namespace Appends

open List

abbrev Appender (ε β : Type) := ExceptT ε (StateM (List β))

section
variable {ε α : Type}

def Appender.on (m : Appender ε β α) (l : List β) : Except ε α × List β := m l

def push (b : β) : Appender ε β Unit := modify (· ++ [b])

theorem Appender.on_bind (f : α → Appender ε β γ) :
    (m >>= f).on l = match m.on l with
      | (.ok a, l') => (f a).on l'
      | (.error e, l') => (.error e, l') := by
  change ExceptT.bindCont f (m.on l).1 (m.on l).2 = _
  rcases m.on l with ⟨e | a, l'⟩
  · rfl
  · rfl

end

variable {ε α β γ ι : Type} {S : Set ι} {done : Prop}

def Adds (key : β → ι) (S : Set ι) (done : Prop) (m : Appender ε β α) : Prop :=
  ∀ l, ∃ new, (m.on l).2 = l ++ new ∧ (new.map key).Nodup ∧ (∀ i, i ∈ new.map key ↔ i ∈ S) ∧
    ((∃ a, (m.on l).1 = .ok a) ↔ done)

namespace Adds

theorem congr {m : Appender ε β α} (hm : Adds key S done m) (hS : ∀ i, i ∈ S ↔ i ∈ T)
    (hdone : done ↔ done') : Adds key T done' m := by
  intro l
  obtain ⟨new, hnew, hnd, hmem, hok⟩ := hm l
  exact ⟨new, hnew, hnd, fun i => (hmem i).trans (hS i), hok.trans hdone⟩

theorem pure (a : α) : Adds key ∅ True (pure a : Appender ε β α) :=
  fun l => ⟨[], (append_nil l).symm, .nil, by simp, iff_of_true ⟨a, rfl⟩ trivial⟩

theorem throw (e : ε) : Adds key ∅ False (throw e : Appender ε β α) :=
  fun l => ⟨[], (append_nil l).symm, .nil, by simp, iff_of_false nofun id⟩

theorem push (b : β) : Adds key {key b} True (push b : Appender ε β Unit) :=
  fun _ => ⟨[b], rfl, nodup_singleton _, fun _ => mem_singleton, iff_of_true ⟨(), rfl⟩ trivial⟩

theorem bind {f : α → Appender ε β γ} (hm : Adds key S done m)
    (hf : done → ∀ a, Adds key T done' (f a)) (hST : ∀ i ∈ S, i ∉ T) :
    Adds key {i | i ∈ S ∨ done ∧ i ∈ T} (done ∧ done') (m >>= f) := by
  intro l
  obtain ⟨new, hnew, hnd, hmem, hok⟩ := hm l
  rw [Appender.on_bind]
  rcases hon : m.on l with ⟨e | a, l'⟩
  · rw [hon] at hnew hok
    have hnot : ¬done := fun h => nomatch hok.mpr h
    refine ⟨new, hnew, hnd, fun i => (hmem i).trans ?_, iff_of_false nofun fun h => hnot h.1⟩
    exact (or_iff_left fun h => hnot h.1).symm
  · rw [hon] at hnew hok
    have hdone := hok.mp ⟨a, rfl⟩
    obtain ⟨new', hnew', hnd', hmem', hok'⟩ := hf hdone a l'
    refine ⟨new ++ new', ?_, ?_, fun i => ?_, hok'.trans (and_iff_right hdone).symm⟩
    · rw [← append_assoc, ← hnew]
      exact hnew'
    · rw [map_append]
      exact hnd.append hnd' fun i hi hi' => hST i ((hmem i).mp hi) ((hmem' i).mp hi')
    · rw [map_append, mem_append, hmem, hmem']
      exact or_congr_right (and_iff_right hdone).symm

theorem liftM_bind {r : Except ε α} {S : α → Set ι} {done : α → Prop} {f : α → Appender ε β γ}
    (hf : ∀ a, Adds key (S a) (done a) (f a)) :
    Adds key {i | ∃ a, r = .ok a ∧ i ∈ S a} (∃ a, r = .ok a ∧ done a)
      (MonadLift.monadLift r >>= f) := by
  cases r with
  | error e => exact (throw e : Adds key ∅ False (_ : Appender ε β γ)).congr (by simp) (by simp)
  | ok a => exact (hf a).congr (by simp) (by simp)

/-- A loop adds what each turn adds, up to the first one that fails. -/
theorem forM {S : γ → Set ι} {done : γ → Prop} {f : γ → Appender ε β Unit} {l : List γ}
    {r : γ → γ → Prop} (hr : ∀ c d, r c d → ¬r d c) (hl : l.Pairwise r)
    (h : ∀ c ∈ l, Adds key (S c) (done c) (f c)) (hdisj : ∀ c d, r c d → ∀ i ∈ S c, i ∉ S d) :
    Adds key {i | ∃ c ∈ l, i ∈ S c ∧ ∀ d ∈ l, r d c → done d} (∀ c ∈ l, done c) (l.forM f) := by
  induction l with
  | nil => exact (pure ()).congr (fun i => by simp) (by simp)
  | cons c l ih =>
    obtain ⟨hc, hl⟩ := pairwise_cons.mp hl
    rw [forall_mem_cons] at h
    refine (bind h.1 (fun _ _ => ih hl h.2) ?_).congr (fun i => ?_) forall_mem_cons.symm
    · rintro i hi ⟨d, hd, hi', -⟩
      exact hdisj c d (hc d hd) i hi hi'
    · simp only [Set.mem_ofPred_eq, exists_mem_cons_iff, forall_mem_cons]
      constructor
      · rintro (hi | ⟨hdone, d, hd, hi, hall⟩)
        · exact .inl ⟨hi, fun h => absurd h (hr c c · h), fun d hd h => absurd h (hr c d (hc d hd))⟩
        · exact .inr ⟨d, hd, hi, fun _ => hdone, hall⟩
      · rintro (⟨hi, -⟩ | ⟨d, hd, hi, hdone, hall⟩)
        · exact .inl hi
        · exact .inr ⟨hdone (hc d hd), d, hd, hi, hall⟩

theorem forM_zipIdx {S : α × Nat → Set ι} {done : α × Nat → Prop} {f : α × Nat → Appender ε β Unit}
    {l : List α} (h : ∀ a ∈ l.zipIdx, Adds key (S a) (done a) (f a))
    (hdisj : ∀ a b, a.2 < b.2 → ∀ i ∈ S a, i ∉ S b) :
    Adds key {i | ∃ a ∈ l.zipIdx, i ∈ S a ∧ ∀ b ∈ l.zipIdx, b.2 < a.2 → done b}
      (∀ a ∈ l.zipIdx, done a) (l.zipIdx.forM f) := by
  refine forM (fun _ _ => Nat.lt_asymm) ?_ h hdisj
  rw [← pairwise_map (f := Prod.snd) (R := (· < ·)), zipIdx_map_snd]
  exact pairwise_lt_range'

end Adds

end Appends
