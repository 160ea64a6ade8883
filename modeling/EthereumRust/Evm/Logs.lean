import EthereumRust.Evm.Isolation

/-!
# Logs

The interpreter collects the logs of the `LOG` opcodes that a run executes, but the result that
`run` returns is built by `ExecutionResult::success`, which has none.
-/

namespace EthereumRust.Evm
open Rust List

namespace Interpreter
open Loop

section
variable {s : Interpreter S}

/-- The logs emitted along a path. -/
def emitted (p : List (Interpreter S)) : List Log :=
  p.filterMap fun s => s.fetched.bind s.logEntry

theorem emitted_snoc (hop : s.fetched = some op) :
    emitted (p ++ [s]) = emitted p ++ (s.logEntry op).toList :=
  filterMap_fetched_snoc hop

theorem emitted_eq_nil_iff : emitted p = [] ↔ ∀ s ∈ p, ∀ n, s.fetched ≠ some (.LOG n) := by
  rw [emitted, filterMap_eq_nil_iff]
  refine forall₂_congr fun s _ => ?_
  constructor
  · intro h n hop
    rw [hop] at h
    cases h
  · intro h
    cases hop : s.fetched with
    | none => rfl
    | some op =>
      rw [Option.bind_some, Option.eq_none_iff_forall_not_mem]
      intro log hlog
      obtain ⟨n, rfl⟩ := eq_log_of_logEntry hlog
      exact h n hop

variable [StateDB S] [Crypto]

theorem logs_of_path (H : Path turn p s₀ s) : s.logs = s₀.logs ++ emitted p := by
  induction H with
  | nil => exact (append_nil _).symm
  | snoc H hturn ih =>
    obtain ⟨op, hstep⟩ := turn_next hturn
    rw [hstep.effect.logs, ih, emitted_snoc hstep.fetched, append_assoc]

theorem logs_of_run {ctx : ExecutionContext} {fuel : Nat}
    (h : run fuel (.new ctx db) = some (.ok r s)) :
    s.logs = emitted (trace turn fuel (.new ctx db)) ∧ r.logs = [] := by
  obtain ⟨a, H, hturn⟩ := path_trace h
  have hrun := reaches_result rfl H.reaches
  have hstp := turn_done_ok hturn
  refine ⟨?_, hstp.logs hrun⟩
  rw [hstp.frame hrun]
  exact logs_of_path H

end

/-- When a run succeeds, the interpreter has collected exactly the logs of the `LOG` opcodes
executed, and the result carries them exactly when there are none. -/
theorem result_logs_iff {S : Type} [StateDB S] [Crypto] (ctx : ExecutionContext) (db : S)
    (fuel : Nat) (r : ExecutionResult) (s : Interpreter S)
    (h : run fuel (.new ctx db) = some (.ok r s)) (_hsuccess : r.status = .Success) :
    s.logs = emitted (trace turn fuel (.new ctx db)) ∧
    (r.logs = emitted (trace turn fuel (.new ctx db)) ↔
      ∀ a ∈ trace turn fuel (.new ctx db), ∀ n, a.fetched ≠ some (.LOG n)) := by
  obtain ⟨hlogs, hres⟩ := logs_of_run h
  refine ⟨hlogs, ?_⟩
  rw [hres, ← emitted_eq_nil_iff]
  exact eq_comm

open Unhashed

/-- `PUSH0`, `PUSH0`, `LOG0`. -/
def logContext : ExecutionContext := createTestContext [0x5f, 0x5f, 0xa0] 1000

/-- The log is emitted, and the result has none. -/
theorem log_missing_in_result :
    ∃ r s, run 4 (.new logContext (∅ : HashMap Address Account)) = some (.ok r s) ∧
      r.status = .Success ∧
      r.logs ≠ emitted (trace turn 4 (.new logContext (∅ : HashMap Address Account))) :=
  exists_of_evaluates (by decide +kernel)

/-- `PUSH0`, `PUSH0`, `MSTORE`. -/
def noLogContext : ExecutionContext := createTestContext [0x5f, 0x5f, 0x52] 1000

theorem result_logs_sample :
    (∃ r s, run 4 (.new logContext (∅ : HashMap Address Account)) = some (.ok r s) ∧
      s.logs.length = 1 ∧
      s.logs = emitted (trace turn 4 (.new logContext (∅ : HashMap Address Account)))) ∧
    ∃ r s, run 4 (.new noLogContext (∅ : HashMap Address Account)) = some (.ok r s) ∧
      r.logs = emitted (trace turn 4 (.new noLogContext (∅ : HashMap Address Account))) := by
  obtain ⟨r, s, hrun, hok, hone⟩ : ∃ r s,
      run 4 (.new logContext (∅ : HashMap Address Account)) = some (.ok r s) ∧
      r.status = .Success ∧ s.logs.length = 1 := exists_of_evaluates (by decide +kernel)
  obtain ⟨r', s', hrun', hok'⟩ : ∃ r s,
      run 4 (.new noLogContext (∅ : HashMap Address Account)) = some (.ok r s) ∧
      r.status = .Success := exists_of_evaluates (by decide +kernel)
  refine ⟨⟨r, s, hrun, hone, (result_logs_iff logContext ∅ 4 r s hrun hok).1⟩, r', s', hrun', ?_⟩
  apply (result_logs_iff noLogContext ∅ 4 r' s' hrun' hok').2.mpr
  exact emitted_eq_nil_iff.mp (isEmpty_iff.mp (by decide +kernel))

end Interpreter

end EthereumRust.Evm
