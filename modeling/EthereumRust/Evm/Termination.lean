import EthereumRust.Evm.StackSafety

/-!
# Termination

The program counter moves forward in every step but a jump, and a jump costs at least 8 gas. The
potential of a machine is the number of jumps that the gas left can still pay, times the length
of the code, plus the distance to the end of the code; every step lowers it.
-/

namespace EthereumRust.Evm
open Rust Method

namespace Interpreter
open Loop

section
variable [StateDB S] {s : Interpreter S}

theorem Steps.forward_or_jump (h : Steps op s s') :
    s.pc < s'.pc ∨ (op = .JUMP ∨ op = .JUMPI) ∧ s'.pc < s.context.code.length ∧
      ∃ amt, GasCost.MID.toNat ≤ amt ∧ s.gas.Spent amt s'.gas := by
  have hpc := fetched_pc_lt h.fetched
  by_cases hj : Jumps op s
  · have hop : op = .JUMP ∨ op = .JUMPI := hj.imp_right And.left
    exact .inr ⟨hop, (h.pc_of_jumps hj).2⟩
  · have hnext := h.pc_of_not_jumps hj
    omega

def potential (s : Interpreter S) : Nat :=
  (s.gas.limit.toNat - s.gas.used.toNat) / 8 * s.context.code.length +
    (s.context.code.length - s.pc)

theorem Steps.potential_lt (h : Steps op s s') (hlim : s.gas.limit ≠ u64Max) :
    s'.potential < s.potential := by
  have hpc := fetched_pc_lt h.fetched
  have hctx := h.effect.context
  have hgas := h.effect.gas
  unfold potential
  rw [hctx, hgas.limit]
  rcases h.forward_or_jump with hfwd | ⟨-, hdest, amt, hamo, hspe⟩
  · have hused := UInt64.le_iff_toNat_le.mp hgas.used_le
    have hquot : (s.gas.limit.toNat - s'.gas.used.toNat) / 8 ≤
        (s.gas.limit.toNat - s.gas.used.toNat) / 8 :=
      Nat.div_le_div_right (by omega)
    have hmul := Nat.mul_le_mul_right s.context.code.length hquot
    omega
  · -- the jump pays for at least one unit of the quotient
    have hused := hspe.used_eq hlim
    have hle := UInt64.le_iff_toNat_le.mp hspe.le_limit
    rw [hgas.limit] at hle
    have hmid : GasCost.MID.toNat = 8 := rfl
    have hquot : (s.gas.limit.toNat - s'.gas.used.toNat) / 8 + 1 ≤
        (s.gas.limit.toNat - s.gas.used.toNat) / 8 := by
      omega
    have hmul := Nat.mul_le_mul_right s.context.code.length hquot
    rw [add_mul] at hmul
    omega

variable [Crypto]

/-- The run from `s` ends after `n` opcodes. -/
def EndsAfter (n : Nat) (s : Interpreter S) : Prop :=
  ∃ p s' b, Path turn p s s' ∧ s'.turn = .done b ∧ n = p.length + if s'.fetched.isSome then 1 else 0

theorem EndsAfter.halts (h : EndsAfter n s) : Halts turn s := by
  obtain ⟨p, s', b, H, hturn, -⟩ := h
  exact ⟨b, s', H.reaches, hturn⟩

theorem exists_endsAfter (ctx : ExecutionContext) (db : S) (hlim : ctx.gasLimit ≠ u64Max) :
    ∃ n, EndsAfter n (.new ctx db) ∧ n ≤ (ctx.gasLimit.toNat / 8 + 1) * ctx.code.length := by
  have hdrop (a b : Interpreter S) (hr : Reaches turn (.new ctx db) a)
      (hturn : a.turn = .next b) : b.potential < a.potential := by
    obtain ⟨op, hstep⟩ := turn_next hturn
    apply hstep.potential_lt
    rw [(Visited.withinLimits (.inl hr)).limit]
    exact hlim
  obtain ⟨b, s', ⟨p, H⟩, hturn⟩ := halts_of_potential hdrop
  refine ⟨_, ⟨p, s', b, H, hturn, rfl⟩, ?_⟩
  have hpot := H.potential hdrop
  have hst : potential (.new ctx db : Interpreter S) =
      (ctx.gasLimit.toNat / 8 + 1) * ctx.code.length := by
    rw [add_mul, one_mul]
    rfl
  -- a machine that still fetches an opcode is not at the end of the code
  have hlast : (if s'.fetched.isSome then 1 else 0) ≤ s'.potential := by
    cases hf : s'.fetched with
    | none => exact Nat.zero_le _
    | some op =>
      have hpc := fetched_pc_lt hf
      unfold potential
      simp only [Option.isSome_some, if_true]
      omega
  omega

/-- `JUMPDEST`, `PUSH0`, `JUMP`: back to the start, with the largest gas limit. -/
def loopContext : ExecutionContext := createTestContext [0x5b, 0x5f, 0x56] u64Max

omit [StateDB S] [Crypto] in
theorem consume_of_limit_max (h : s.gas.limit = u64Max) :
    consume amt s = .ok () { s with gas := s.gas.spend amt } := by
  have haff : s.gas.Affords amt := by
    rw [Gas.Affords, h, UInt64.le_iff_toNat_le, toNat_saturatingAdd]
    exact min_le_right _ _
  rw [consume, Gas.consume_eq, if_pos haff]

def Looping (s : Interpreter S) : Prop :=
  s.context = loopContext ∧ s.gas.limit = u64Max ∧ s.result = none ∧
    (s.pc = 0 ∧ s.stack.data = [] ∨ s.pc = 1 ∧ s.stack.data = [] ∨ s.pc = 2 ∧ s.stack.data = [0])

theorem Looping.step (h : Looping s) : ∃ s', s.turn = .next s' ∧ Looping s' := by
  obtain ⟨ctx, state, ⟨stack⟩, mem, gas, pc, returnData, logs, res⟩ := s
  obtain ⟨rfl, hlim, rfl, ⟨rfl, rfl⟩ | ⟨rfl, rfl⟩ | ⟨rfl, rfl⟩⟩ := h
  · refine ⟨⟨loopContext, state, ⟨[]⟩, mem, gas.spend 1, 1, returnData, logs, none⟩, ?_,
      rfl, hlim, rfl, .inr (.inl ⟨rfl, rfl⟩)⟩
    refine turn_eq_next rfl ?_ rfl
    exact (bind_of_ok rfl).trans (bind_of_ok (consume_of_limit_max hlim))
  · refine ⟨⟨loopContext, state, ⟨[0]⟩, mem, gas.spend 2, 2, returnData, logs, none⟩, ?_,
      rfl, hlim, rfl, .inr (.inr ⟨rfl, rfl⟩)⟩
    refine turn_eq_next rfl ?_ rfl
    exact (bind_of_ok rfl).trans (bind_of_ok (consume_of_limit_max hlim))
  · refine ⟨⟨loopContext, state, ⟨[]⟩, mem, gas.spend 8, 0, returnData, logs, none⟩, ?_,
      rfl, hlim, rfl, .inl ⟨rfl, rfl⟩⟩
    refine turn_eq_next rfl ?_ rfl
    exact (bind_of_ok rfl).trans (bind_of_ok (consume_of_limit_max hlim))

theorem not_halts_loopContext : ¬Halts turn (.new loopContext db : Interpreter S) := by
  apply not_halts_of_invariant Looping
  · exact ⟨rfl, rfl, rfl, .inl ⟨rfl, rfl⟩⟩
  · intro s h
    exact h.step

end

/-- The gas limits under which every run ends within `(gas_limit / 8 + 1) * code.len()` opcodes,
goes back only by a jump that uses gas, and goes forward when it uses none, are those below
`u64::MAX`. -/
theorem run_terminates_iff {S : Type} [StateDB S] [Crypto] (db : S) (limit : UInt64) :
    (∀ ctx : ExecutionContext, ctx.gasLimit = limit →
      (∃ n, EndsAfter n (.new ctx db) ∧ n ≤ (limit.toNat / 8 + 1) * ctx.code.length) ∧
      ∀ s s', Reaches turn (.new ctx db) s → s.turn = .next s' →
        (s'.pc ≤ s.pc → (s.fetched = some .JUMP ∨ s.fetched = some .JUMPI) ∧
          s.gas.used < s'.gas.used) ∧
        (s'.gas.used = s.gas.used → s.pc < s'.pc)) ↔
    limit ≠ u64Max := by
  constructor
  · intro h hmax
    obtain ⟨⟨n, hends, -⟩, -⟩ := h loopContext hmax.symm
    exact not_halts_loopContext hends.halts
  · intro hlim ctx hctx
    subst hctx
    refine ⟨exists_endsAfter ctx db hlim, ?_⟩
    intro s s' hr hturn
    obtain ⟨op, hstep⟩ := turn_next hturn
    rcases hstep.forward_or_jump with hfwd | ⟨hop, -, amt, hamo, hspe⟩
    · exact ⟨fun hback => absurd hfwd (not_lt.mpr hback), fun _ => hfwd⟩
    · have hmax : s.gas.limit ≠ u64Max := by
        rw [(Visited.withinLimits (.inl hr)).limit]
        exact hlim
      have hused := hspe.used_eq hmax
      have hmid : GasCost.MID.toNat = 8 := rfl
      have hlt : s.gas.used < s'.gas.used := by
        rw [UInt64.lt_iff_toNat_lt]
        omega
      refine ⟨fun _ => ⟨?_, hlt⟩, fun heq => absurd heq.symm (UInt64.ne_of_lt hlt)⟩
      rw [hstep.fetched]
      exact hop.imp (congrArg some) (congrArg some)

open Unhashed in
/-- With the limit `u64::MAX` the meter saturates, and no charge is ever refused. -/
theorem loop_never_ends : ¬∃ n, EndsAfter n (.new loopContext (∅ : HashMap Address Account)) := by
  intro ⟨n, h⟩
  exact not_halts_loopContext h.halts

end Interpreter

end EthereumRust.Evm
