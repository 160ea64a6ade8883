import EthereumRust.Evm.Run

/-!
# The gas meter and the stack

The prologue of `execute_opcode` checks the declared stack effect of an opcode. It is enough for
every arm: no stack operation behind it fails.
-/

namespace EthereumRust.Evm
open Rust

namespace Opcode

def unimplemented : List Opcode :=
  [.BLOBBASEFEE, .TSTORE, .MCOPY, .CREATE, .CALL, .CALLCODE, .DELEGATECALL, .CREATE2,
    .STATICCALL, .SELFDESTRUCT]

theorem mem_unimplemented_kind (h : op ∈ unimplemented) : op.kind = .skip := by
  revert h op
  decide

theorem inputs_eq_outputs_iff (h : op.kind = .skip) :
    op.stackInputs = op.stackOutputs ↔ op ∉ unimplemented := by
  cases op <;> first | decide | cases h

end Opcode

namespace Interpreter
open Loop

section
variable [StateDB S] {s s' : Interpreter S} {op : Opcode}

theorem Effect.balanced (h : Effect op s s') (hrun : s'.result = none)
    (hkind : op.kind ≠ .skip) : Balanced op s s'.stack := by
  cases h with
  | plain _ _ hstk | push _ _ hstk | jump _ _ _ _ _ hstk | write _ _ hstk _
  | store _ _ _ hstk | log _ _ _ hstk => exact hstk
  | halt => cases hrun
  | skip hskip => exact absurd hskip hkind

theorem Effect.stack_le (h : Effect op s s') (hrdy : Ready op s) :
    s'.stack.data.length ≤ STACK_LIMIT := by
  have hroom := hrdy.room
  cases h with
  | plain _ _ hstk | push _ _ hstk | jump _ _ _ _ _ hstk | write _ _ hstk _
  | store _ _ _ hstk | log _ _ _ hstk =>
    unfold Balanced at hstk
    dsimp only
    omega
  | halt _ _ hstk =>
    dsimp only
    omega
  | skip =>
    dsimp only
    omega

structure WithinLimits (gasLimit : UInt64) (s : Interpreter S) : Prop where
  limit : s.gas.limit = gasLimit
  used : s.gas.used ≤ gasLimit
  stack : s.stack.data.length ≤ STACK_LIMIT

omit [StateDB S] in
theorem WithinLimits.of_grows (h : WithinLimits gasLimit s)
    (hgas : s.gas.Grows s'.gas) (hstk : s'.stack.data.length ≤ STACK_LIMIT) :
    WithinLimits gasLimit s' where
  limit := hgas.limit.trans h.limit
  used := by
    have hle := hgas.le_limit (h.limit ▸ h.used)
    rwa [hgas.limit, h.limit] at hle
  stack := hstk

variable [Crypto]

theorem Visited.withinLimits {ctx : ExecutionContext}
    (H : Visited (.new ctx db) s) : WithinLimits ctx.gasLimit s := by
  refine H.induct (WithinLimits ctx.gasLimit) ⟨rfl, ?_, Nat.zero_le _⟩ ?_ ?_ ?_
  · exact UInt64.zero_le
  · intro op a b _ _ hrdy ha heff
    exact ha.of_grows heff.gas (heff.stack_le hrdy)
  · intro e a b ha hflt
    exact ha.of_grows hflt.gas (le_trans hflt.stack ha.stack)
  · intro a ha
    exact ⟨ha.limit, ha.used, ha.stack⟩

end

open Unhashed

/-- In every machine visited the gas used is within the limit and the stack within 1024 words, no
step lowers the gas used, and an arm whose prologue has accepted fails neither with a stack
underflow nor with a stack overflow. -/
theorem run_gas_stack_safe {S : Type} [StateDB S] [Crypto] (ctx : ExecutionContext) (db : S) :
    (∀ s, Visited (.new ctx db) s →
      s.gas.used ≤ ctx.gasLimit ∧ s.gas.limit = ctx.gasLimit ∧ s.stack.data.length ≤ 1024) ∧
    (∀ s s', Reaches turn (.new ctx db) s →
      (s.turn = .next s' ∨ ∃ r, s.turn = .done (.ok r s')) → s.gas.used ≤ s'.gas.used) ∧
    ∀ s, Reaches turn (.new ctx db) s → ∀ op s₁, prologue op s = .ok () s₁ →
      ∀ e s', arm op s₁ = .err e s' → e ≠ .StackUnderflow ∧ e ≠ .StackOverflow := by
  refine ⟨?_, ?_, ?_⟩
  · intro s H
    have h := H.withinLimits
    exact ⟨h.used, h.limit, h.stack⟩
  · intro s s' _ hturn
    rcases hturn with hturn | ⟨r, hturn⟩
    · obtain ⟨op, hstep⟩ := turn_next hturn
      exact hstep.effect.gas.used_le
    · exact (turn_done_ok hturn).gas.used_le
  · intro s _ op s₁ hpro e s' harm
    obtain ⟨rfl, hrdy⟩ := prologue_spec.of_ok hpro
    obtain ⟨hflt, -⟩ := (arm_spec hrdy).sat.of_err harm
    exact ⟨hflt.not_underflow, hflt.not_overflow⟩

/-- `PUSH1 2`, `PUSH1 3`, `ADD`. -/
def addContext : ExecutionContext := createTestContext [0x60, 0x02, 0x60, 0x03, 0x01] 100

theorem run_gas_stack_safe_of_add :
    ∃ r s, run 4 (.new addContext (∅ : HashMap Address Account)) = some (.ok r s) ∧
      s.gas.used = 9 ∧ s.gas.used ≤ 100 ∧ s.stack.data.length ≤ 1024 := by
  refine ⟨_, _, rfl, rfl, ?_⟩
  have h := (run_gas_stack_safe addContext (∅ : HashMap Address Account)).1 _
    (visited_of_run (rfl : run 4 _ = some (.ok _ _)))
  exact ⟨h.1, h.2.2⟩

/-- An opcode that succeeds without stopping the run has its declared effect on the length of the
stack exactly when it is not one of those that the catch-all arm skips. -/
theorem stack_effect_declared_iff {S : Type} [StateDB S] [Crypto] (byte : UInt8) (op : Opcode)
    (s s' : Interpreter S) (_hbyte : Opcode.fromU8 byte = some op)
    (hexec : executeOpcode op s = .ok () s') (hrun : s'.result = none) :
    s'.stack.data.length = s.stack.data.length - op.stackInputs + op.stackOutputs ↔
      op ∉ Opcode.unimplemented := by
  obtain ⟨hrdy, heff, -⟩ := executeOpcode_spec.of_ok hexec
  have hin := hrdy.inputs
  by_cases hkind : op.kind = .skip
  · rw [heff.eq_of_skip hkind, ← Opcode.inputs_eq_outputs_iff hkind]
    dsimp only
    omega
  · have hbal : Balanced op s s'.stack := heff.balanced hrun hkind
    unfold Balanced at hbal
    refine iff_of_true (by omega) ?_
    intro hmem
    exact hkind (Opcode.mem_unimplemented_kind hmem)

def selfdestructState : Interpreter (HashMap Address Account) :=
  { Interpreter.new (createTestContext [0xff] 100) ∅ with stack := ⟨[0]⟩ }

/-- `SELFDESTRUCT` declares one input and pops nothing. -/
theorem selfdestruct_keeps_operand :
    ∃ s', Opcode.fromU8 0xff = some .SELFDESTRUCT ∧
      executeOpcode .SELFDESTRUCT selfdestructState = .ok () s' ∧ s'.result = none ∧
      s'.stack.data.length ≠ selfdestructState.stack.data.length -
        Opcode.SELFDESTRUCT.stackInputs + Opcode.SELFDESTRUCT.stackOutputs :=
  ⟨_, rfl, rfl, rfl, by decide⟩

theorem stack_effect_declared_of_iszero :
    ∃ s', executeOpcode .ISZERO selfdestructState = .ok () s' ∧ s'.stack.data.length = 1 := by
  refine ⟨_, rfl, ?_⟩
  exact (stack_effect_declared_iff 0x15 .ISZERO selfdestructState _ rfl rfl rfl).mpr (by decide)

end Interpreter

end EthereumRust.Evm
