import EthereumRust.Lib.Method

/-!
# Loops as iterated turns

A loop is a function from the loop state to a `Turn`: go round again or leave. `exec` runs it with a
bound on the number of turns; `Path` is the run itself, with the states in which a turn was taken,
and `Halts` says that the loop is left.
-/

namespace Loop

inductive Turn (σ β : Type) where
  | next (s : σ)
  | done (b : β)

section
variable (turn : σ → Turn σ β)

/-- Run the loop for at most `fuel` turns; `none` when it has not been left by then. -/
def exec : Nat → σ → Option β
  | 0, _ => none
  | fuel + 1, s =>
    match turn s with
    | .next s' => exec fuel s'
    | .done b => some b

/-- The states passed through in `fuel` turns. -/
def trace : Nat → σ → List σ
  | 0, _ => []
  | fuel + 1, s =>
    match turn s with
    | .next s' => s :: trace fuel s'
    | .done _ => []

/-- `Path p s s'`: the loop goes from `s` to `s'`, and `p` lists the states in which a turn was
taken on the way, in order. -/
inductive Path : List σ → σ → σ → Prop where
  | nil : Path [] s s
  | snoc : Path p s s' → turn s' = .next s'' → Path (p ++ [s']) s s''

def Reaches (s s' : σ) : Prop := ∃ p, Path turn p s s'

def Leaves (s : σ) (b : β) : Prop := ∃ s', Reaches turn s s' ∧ turn s' = .done b

def Halts (s : σ) : Prop := ∃ b, Leaves turn s b

end

variable {turn : σ → Turn σ β}

namespace Path

theorem cons (h : turn s = .next s₁) (H : Path turn p s₁ s') : Path turn (s :: p) s s' := by
  induction H with
  | nil => exact .snoc .nil h
  | snoc _ hturn ih => exact .snoc (ih h) hturn

theorem head (H : Path turn p s s') :
    (p = [] ∧ s = s') ∨ ∃ p' s₁, p = s :: p' ∧ turn s = .next s₁ ∧ Path turn p' s₁ s' := by
  induction H with
  | nil => exact .inl ⟨rfl, rfl⟩
  | snoc _ hturn ih =>
    rcases ih with ⟨rfl, rfl⟩ | ⟨p', s₁, rfl, h, H'⟩
    · exact .inr ⟨[], _, rfl, hturn, .nil⟩
    · exact .inr ⟨_, s₁, rfl, h, H'.snoc hturn⟩

theorem reaches (H : Path turn p s s') : Reaches turn s s' := ⟨p, H⟩

theorem potential {Φ : σ → Nat} (hΦ : ∀ a b, Reaches turn s a → turn a = .next b → Φ b < Φ a)
    (H : Path turn p s s') : p.length + Φ s' ≤ Φ s := by
  induction H with
  | nil => simp
  | snoc H hturn ih =>
    have hdrop := hΦ _ _ H.reaches hturn
    have := ih hΦ
    rw [List.length_append, List.length_singleton]
    omega

theorem unique_end (H : Path turn p s s') (hs' : turn s' = .done b) (H₂ : Path turn p₂ s s₂)
    (hs₂ : turn s₂ = .done b₂) : p = p₂ ∧ s' = s₂ := by
  induction p generalizing p₂ s with
  | nil =>
    rcases H.head with ⟨-, rfl⟩ | ⟨_, _, h, -⟩
    · rcases H₂.head with ⟨rfl, rfl⟩ | ⟨_, _, rfl, h, -⟩
      · exact ⟨rfl, rfl⟩
      · rw [hs'] at h; cases h
    · cases h
  | cons m p ih =>
    rcases H.head with ⟨h, -⟩ | ⟨p', s₁, hp, h, H'⟩
    · cases h
    cases hp
    rcases H₂.head with ⟨rfl, rfl⟩ | ⟨p₂', t₁, rfl, h₂, H₂'⟩
    · rw [hs₂] at h; cases h
    · rw [h] at h₂
      cases h₂
      obtain ⟨rfl, rfl⟩ := ih H' H₂'
      exact ⟨rfl, rfl⟩

end Path

namespace Reaches

theorem refl : Reaches turn s s := ⟨[], .nil⟩

theorem tail (H : Reaches turn s s') (h : turn s' = .next s'') : Reaches turn s s'' := by
  obtain ⟨p, H⟩ := H
  exact ⟨_, H.snoc h⟩

theorem induct (inv : σ → Prop) (h0 : inv s)
    (hstep : ∀ a b, Reaches turn s a → inv a → turn a = .next b → inv b)
    (H : Reaches turn s s') : inv s' := by
  obtain ⟨p, H⟩ := H
  induction H with
  | nil => exact h0
  | snoc H h ih => exact hstep _ _ H.reaches (ih h0 hstep) h

end Reaches

theorem Leaves.unique (H : Leaves turn s b) (H₂ : Leaves turn s b₂) : b = b₂ := by
  obtain ⟨s', ⟨p, H⟩, h⟩ := H
  obtain ⟨s₂, ⟨p₂, H₂⟩, h₂⟩ := H₂
  obtain ⟨-, rfl⟩ := H.unique_end h H₂ h₂
  rw [h] at h₂
  cases h₂
  rfl

theorem exec_eq_some :
    exec turn fuel s = some b ↔ ∃ p s', Path turn p s s' ∧ turn s' = .done b ∧ p.length < fuel := by
  induction fuel generalizing s with
  | zero => simp [exec]
  | succ fuel ih =>
    cases hs : turn s with
    | done b' =>
      simp only [exec, hs, Option.some.injEq]
      constructor
      · rintro rfl
        exact ⟨[], s, .nil, hs, Nat.succ_pos _⟩
      · rintro ⟨p, s', H, hs', -⟩
        obtain ⟨-, rfl⟩ := Path.unique_end .nil hs H hs'
        rw [hs] at hs'
        cases hs'
        rfl
    | next s₁ =>
      simp only [exec, hs, ih]
      constructor
      · rintro ⟨p, s', H, hs', hp⟩
        exact ⟨s :: p, s', H.cons hs, hs', Nat.succ_lt_succ hp⟩
      · rintro ⟨p, s', H, hs', hp⟩
        rcases H.head with ⟨-, rfl⟩ | ⟨p', t, rfl, h, H'⟩
        · rw [hs] at hs'; cases hs'
        · rw [hs] at h
          cases h
          exact ⟨p', s', H', hs', Nat.lt_of_succ_lt_succ hp⟩

theorem path_trace (h : exec turn fuel s = some b) :
    ∃ s', Path turn (trace turn fuel s) s s' ∧ turn s' = .done b := by
  induction fuel generalizing s with
  | zero => cases h
  | succ fuel ih =>
    unfold exec at h
    unfold trace
    cases hs : turn s with
    | done b' =>
      simp only [hs, Option.some.injEq] at h
      exact ⟨s, .nil, h ▸ hs⟩
    | next s₁ =>
      simp only [hs] at h
      obtain ⟨s', H, hs'⟩ := ih h
      exact ⟨s', H.cons hs, hs'⟩

theorem leaves_iff_exec : Leaves turn s b ↔ ∃ fuel, exec turn fuel s = some b := by
  constructor
  · rintro ⟨s', ⟨p, H⟩, h⟩
    exact ⟨p.length + 1, exec_eq_some.mpr ⟨p, s', H, h, Nat.lt_succ_self _⟩⟩
  · rintro ⟨fuel, h⟩
    obtain ⟨p, s', H, h, -⟩ := exec_eq_some.mp h
    exact ⟨s', H.reaches, h⟩

theorem Leaves.of_done (h : turn s = .done b) : Leaves turn s b := ⟨s, .refl, h⟩

theorem Leaves.of_next (h : turn s = .next s') (H : Leaves turn s' b) : Leaves turn s b := by
  obtain ⟨s'', ⟨p, H⟩, hs''⟩ := H
  exact ⟨s'', ⟨s :: p, H.cons h⟩, hs''⟩

theorem Leaves.induct (motive : σ → Prop) (hdone : ∀ s, turn s = .done b → motive s)
    (hnext : ∀ s s', turn s = .next s' → motive s' → motive s) (H : Leaves turn s b) :
    motive s := by
  obtain ⟨s', ⟨p, H⟩, hs'⟩ := H
  have hend := hdone s' hs'
  clear hs'
  induction H with
  | nil => exact hend
  | snoc _ hturn ih => exact ih (hnext _ _ hturn hend)

theorem Leaves.eventually (H : Leaves turn s b) :
    ∃ n, ∀ fuel, n ≤ fuel → exec turn fuel s = some b := by
  obtain ⟨s', ⟨p, H⟩, hs'⟩ := H
  exact ⟨p.length + 1, fun fuel hfuel => exec_eq_some.mpr ⟨p, s', H, hs', hfuel⟩⟩

theorem Halts.of_next (h : turn s = .next s') (H : Halts turn s') : Halts turn s := by
  obtain ⟨b, H⟩ := H
  exact ⟨b, H.of_next h⟩

theorem halts_of_potential {Φ : σ → Nat}
    (hΦ : ∀ a b, Reaches turn s a → turn a = .next b → Φ b < Φ a) : Halts turn s := by
  suffices ∀ n s', Φ s' ≤ n → Reaches turn s s' → Halts turn s from
    this _ s (Nat.le_refl _) .refl
  intro n
  induction n with
  | zero =>
    intro s' hn hr
    cases hs : turn s' with
    | done b => exact ⟨b, s', hr, hs⟩
    | next s₁ => have := hΦ _ _ hr hs; omega
  | succ n ih =>
    intro s' hn hr
    cases hs : turn s' with
    | done b => exact ⟨b, s', hr, hs⟩
    | next s₁ =>
      have := hΦ _ _ hr hs
      exact ih s₁ (by omega) (hr.tail hs)

theorem not_halts_of_invariant (inv : σ → Prop) (h0 : inv s)
    (hstep : ∀ a, inv a → ∃ b, turn a = .next b ∧ inv b) : ¬Halts turn s := by
  rintro ⟨b, s', hr, hs⟩
  have hinv : inv s' := by
    refine hr.induct inv h0 fun a a' _ ha h => ?_
    obtain ⟨a₁, h₁, ha₁⟩ := hstep a ha
    rw [h] at h₁
    cases h₁
    exact ha₁
  obtain ⟨_, h, -⟩ := hstep s' hinv
  rw [hs] at h
  cases h

end Loop
