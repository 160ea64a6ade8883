import Mathlib.Data.List.Basic

/-!
# Runs and their histories

A system goes from state to state under calls. `Run step s₀ past s` says that the calls `past`, in
order, lead from `s₀` to `s`; what a step may do can depend on the calls before it. A call can be
labelled with its answer, and the history is then what a client has seen.
-/

namespace History

open List

inductive Run {σ ι : Type} (step : List ι → σ → ι → σ → Prop) (s₀ : σ) : List ι → σ → Prop where
  | start : Run step s₀ [] s₀
  | next : Run step s₀ past s → step past s call s' → Run step s₀ (past ++ [call]) s'

variable {σ ι : Type} {s₀ : σ} {past calls : List ι}

theorem Run.induct (inv : List ι → σ → Prop) (h : Run step s₀ past s) (hst : inv [] s₀)
    (hstep : ∀ past s call s', Run step s₀ past s → inv past s → step past s call s' →
      inv (past ++ [call]) s') : inv past s := by
  induction h with
  | start => exact hst
  | next h hlast ih => exact hstep _ _ _ _ h ih hlast

theorem Run.imp (h : Run step s₀ past s)
    (hstep : ∀ past s call s', step past s call s' → step' past s call s') :
    Run step' s₀ past s := by
  induction h with
  | start => exact .start
  | next _ hlast ih => exact ih.next (hstep _ _ _ _ hlast)

theorem Run.of_append {pre post : List ι} (h : Run step s₀ (pre ++ call :: post) s) :
    ∃ t t', Run step s₀ pre t ∧ step pre t call t' := by
  generalize hpast : pre ++ call :: post = past at h
  induction h generalizing post with
  | start => simp at hpast
  | next h hlast ih =>
    rcases eq_nil_or_concat post with rfl | ⟨post', last, rfl⟩
    · obtain ⟨rfl, hcall⟩ := append_inj' hpast rfl
      cases hcall
      exact ⟨_, _, h, hlast⟩
    · rw [concat_eq_append, ← cons_append, ← append_assoc] at hpast
      exact ih (append_inj' hpast rfl).1

def replay (perform : List ι → σ → ι → Option σ) : List ι → List ι → σ → Option σ
  | _, [], s => some s
  | past, call :: calls, s => (perform past s call).bind (replay perform (past ++ [call]) calls)

/-- A replay that succeeds is a run. -/
theorem run_of_replay
    (hperf : ∀ past s call s', perform past s call = some s' → step past s call s')
    (h : replay perform [] calls s₀ = some s) : Run step s₀ calls s := by
  suffices ∀ past s₁, Run step s₀ past s₁ → replay perform past calls s₁ = some s →
      Run step s₀ (past ++ calls) s from this [] s₀ .start h
  clear h
  induction calls with
  | nil =>
    intro past s₁ hrun h
    cases h
    rwa [append_nil]
  | cons call calls ih =>
    intro past s₁ hrun h
    obtain ⟨s₂, hs₂, h⟩ := Option.bind_eq_some_iff.mp h
    have hnext := ih (past ++ [call]) s₂ (hrun.next (hperf past s₁ call s₂ hs₂)) h
    rwa [append_assoc, singleton_append] at hnext

theorem exists_run_of_replay
    (hperf : ∀ past s call s', perform past s call = some s' → step past s call s')
    [DecidablePred P] (h : (replay perform [] calls s₀).any (P ·) = true) :
    ∃ s, Run step s₀ calls s ∧ P s := by
  obtain ⟨s, hs, hP⟩ := (Option.any_eq_true _ _).mp h
  exact ⟨s, run_of_replay hperf hs, of_decide_eq_true hP⟩

/-- A run that evaluation finds, for a statement about its last state. -/
theorem exists_of_replay
    (hperf : ∀ past s call s', perform past s call = some s' → step past s call s')
    [DecidablePred P] (h : (replay perform [] calls s₀).any (P ·) = true)
    {Q : σ → Prop} (hQ : ∀ s, Run step s₀ calls s → P s → Q s) : ∃ s, Q s := by
  obtain ⟨s, hrun, hP⟩ := exists_run_of_replay hperf h
  exact ⟨s, hQ s hrun hP⟩

/-- `P` holds at every call of the run. -/
def Along (perform : σ → ι → Option σ) (P : σ → ι → Prop) : σ → List ι → Prop
  | _, [] => True
  | s, call :: calls => P s call ∧ ∀ s' ∈ perform s call, Along perform P s' calls

theorem along_iff (inv : σ → Prop) (hiff : ∀ s call, inv s → (P s call ↔ Q s call))
    (hinv : ∀ s call s', inv s → P s call → perform s call = some s' → inv s')
    (h : inv s) : Along perform P s calls ↔ Along perform Q s calls := by
  induction calls generalizing s with
  | nil => rfl
  | cons call calls ih =>
    rw [Along, Along, ← hiff s call h]
    refine and_congr_right fun hcall => forall_congr' fun s' => forall_congr' fun hs' => ?_
    exact ih (hinv s call s' h hcall hs')

end History
