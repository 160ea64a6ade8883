import EthereumRust.Evm.Termination

/-!
# Panics

A run panics when it reaches a machine in which the fetched opcode passes its prologue and its
operands overflow. Short of that it returns a result, as long as it ends at all.
-/

namespace EthereumRust.Evm
open Rust

namespace Interpreter
open Loop

section
variable [StateDB S] [Crypto] {s₀ : Interpreter S}

theorem run_panics_iff :
    (∃ fuel p, s₀.run fuel = some (.panic p)) ↔ ∃ s, Reaches turn s₀ s ∧ s.Panics := by
  constructor
  · intro ⟨fuel, p, h⟩
    obtain ⟨path, s, H, hturn⟩ := run_eq_some h
    exact ⟨s, H.reaches, turn_panics_iff.mp ⟨p, hturn⟩⟩
  · intro ⟨s, hr, hpan⟩
    obtain ⟨p, hturn⟩ := turn_panics_iff.mpr hpan
    obtain ⟨fuel, h⟩ := leaves_iff_exec.mp ⟨s, hr, hturn⟩
    exact ⟨fuel, p, h⟩

theorem run_returns_iff (hhal : Halts turn s₀) :
    (∃ fuel r s, s₀.run fuel = some (.ok r s)) ↔ ¬∃ fuel p, s₀.run fuel = some (.panic p) := by
  constructor
  · intro ⟨fuel, r, s, h⟩ ⟨fuel', p, h'⟩
    have hlvs := leaves_iff_exec.mpr ⟨fuel, h⟩
    have hlvs' := leaves_iff_exec.mpr ⟨fuel', h'⟩
    cases hlvs.unique hlvs'
  · intro hno
    obtain ⟨b, hlvs⟩ := hhal
    obtain ⟨fuel, h⟩ := leaves_iff_exec.mp hlvs
    cases b with
    | ok r s => exact ⟨fuel, r, s, h⟩
    | err e s =>
      obtain ⟨path, a, -, hturn⟩ := run_eq_some h
      exact absurd hturn turn_ne_err
    | panic p => exact absurd ⟨fuel, p, h⟩ hno

end

/-- A run never panics exactly when no opcode that it fetches and whose prologue accepts has
operands that overflow; under a gas limit below `u64::MAX` it then returns a result, and only
then. -/
theorem run_never_panics_iff {S : Type} [StateDB S] [Crypto] (ctx : ExecutionContext) (db : S) :
    ((∀ fuel p, run fuel (.new ctx db) ≠ some (.panic p)) ↔
      ∀ s op, Reaches turn (.new ctx db) s → s.fetched = some op → Ready op s →
        ¬s.Overflows op) ∧
    (ctx.gasLimit ≠ u64Max →
      ((∃ fuel r s, run fuel (.new ctx db) = some (.ok r s)) ↔
        ∀ s op, Reaches turn (.new ctx db) s → s.fetched = some op → Ready op s →
          ¬s.Overflows op)) := by
  have hsafe : (¬∃ fuel p, run fuel (.new ctx db) = some (.panic p)) ↔
      ∀ s op, Reaches turn (.new ctx db) s → s.fetched = some op → Ready op s →
        ¬s.Overflows op := by
    rw [run_panics_iff]
    constructor
    · intro hno s op hr hf hrdy hov
      exact hno ⟨s, hr, op, hf, hrdy, hov⟩
    · intro h ⟨s, hr, op, hf, hrdy, hov⟩
      exact h s op hr hf hrdy hov
  refine ⟨?_, ?_⟩
  · rw [← hsafe, not_exists]
    exact forall_congr' fun fuel => not_exists.symm
  · intro hlim
    obtain ⟨n, hends, -⟩ := exists_endsAfter ctx db hlim
    rw [run_returns_iff hends.halts, hsafe]

/-- `PUSH0`, `NOT`, `MLOAD`. -/
def loadFarAway : ExecutionContext := createTestContext [0x5f, 0x19, 0x51] 100

open Unhashed in
/-- The offset of `MLOAD` is not a `usize`. -/
theorem loadFarAway_panics :
    run 3 (.new loadFarAway (∅ : HashMap Address Account)) = some (.panic .cast) :=
  rfl

end Interpreter

end EthereumRust.Evm
