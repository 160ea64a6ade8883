import EthereumRust.Evm.Step
import EthereumRust.Evm.WordSpec

/-!
# The order of the operands

An arm pops `b` before `a` and pushes a function of `a` and `b`, so its left operand is the second
word of the stack. The Yellow Paper takes the top word as the left operand. `yellowPaper` gives its
results for the arithmetic opcodes that are not symmetric.
-/

namespace EthereumRust.Evm
open Rust

/-- The word that the Yellow Paper puts in place of the operands, for the top word `x`, the second
word `y` and the third word `z`. -/
def yellowPaper : Opcode → Option (U256 → U256 → U256 → U256)
  | .SUB => some fun x y _ => x - y
  | .DIV => some fun x y _ => if y = 0 then 0 else .ofNat 256 (x.toNat / y.toNat)
  | .SDIV => some fun x y _ => if y = 0 then 0 else .ofInt 256 (x.toInt.tdiv y.toInt)
  | .MOD => some fun x y _ => if y = 0 then 0 else .ofNat 256 (x.toNat % y.toNat)
  | .SMOD => some fun x y _ => if y = 0 then 0 else .ofInt 256 (x.toInt.tmod y.toInt)
  | .EXP => some fun x y _ => .ofNat 256 (x.toNat ^ y.toNat)
  | .LT => some fun x y _ => boolWord (x.toNat < y.toNat)
  | .GT => some fun x y _ => boolWord (x.toNat > y.toNat)
  | .SLT => some fun x y _ => boolWord (x.toInt < y.toInt)
  | .SGT => some fun x y _ => boolWord (x.toInt > y.toInt)
  | .ADDMOD => some fun x y z => if z = 0 then 0 else .ofNat 256 ((x.toNat + y.toNat) % z.toNat)
  | .MULMOD => some fun x y z => if z = 0 then 0 else .ofNat 256 (x.toNat * y.toNat % z.toNat)
  | _ => none

namespace Interpreter
open Method

variable {s s' : Interpreter S}

theorem stack_of_consume (h : consume amt s = .ok () s') : s'.stack = s.stack := by
  unfold consume at h
  split at h
  · cases h
    rfl
  · cases h

theorem stack_of_pop (h : pop s = .ok a s') : s.stack.data = a :: s'.stack.data := by
  unfold pop Stack.pop at h
  cases hs : s.stack.data with
  | nil =>
    rw [hs] at h
    cases h
  | cons value rest =>
    rw [hs] at h
    cases h
    rfl

theorem stack_of_push (h : push v s = .ok () s') : s'.stack.data = v :: s.stack.data := by
  unfold push onStack Stack.push at h
  dsimp only at h
  split at h
  · rename_i stack hstk
    split at hstk
    · cases hstk
    · cases hstk
      cases h
      rfl
  · cases h

theorem stack_of_advance (h : advance s = .ok () s') : s'.stack = s.stack := by
  obtain ⟨pc, t, hread, hadd⟩ := bind_eq_ok.mp h
  obtain ⟨next, t', hnext, hupd⟩ := bind_eq_ok.mp hadd
  obtain ⟨-, rfl⟩ := checked_eq_ok.mp hnext
  cases hread
  cases hupd
  rfl

theorem stack_of_pushAdvance (h : (push v >>= fun _ => advance : Exec S Unit) s = .ok () s') :
    s'.stack.data = v :: s.stack.data := by
  obtain ⟨_, t, hpush, h⟩ := bind_eq_ok.mp h
  rw [stack_of_advance h, stack_of_push hpush]

theorem stack_of_binaryOp {f : U256 → U256 → U256}
    (h : binaryOp cost (fun a b => return f a b) s = .ok () s') :
    s'.stack.data = f (s.operand 1) (s.operand 0) :: s.stack.data.drop 2 := by
  obtain ⟨_, t, hcon, h⟩ := bind_eq_ok.mp h
  obtain ⟨b, t₁, hb, h⟩ := bind_eq_ok.mp h
  obtain ⟨a, t₂, ha, h⟩ := bind_eq_ok.mp h
  have hdata : s.stack.data = b :: a :: t₂.stack.data := by
    rw [← stack_of_consume hcon, stack_of_pop hb, stack_of_pop ha]
  rw [stack_of_pushAdvance h]
  simp [operand, hdata]

theorem stack_of_exp (h : exp s = .ok () s') :
    s'.stack.data = (s.operand 1).overflowingPow (s.operand 0) :: s.stack.data.drop 2 := by
  obtain ⟨exponent, t, hexp, h⟩ := bind_eq_ok.mp h
  obtain ⟨_, t₁, hcon, h⟩ := bind_eq_ok.mp h
  obtain ⟨base, t₂, hbase, h⟩ := bind_eq_ok.mp h
  have hdata : s.stack.data = exponent :: base :: t₂.stack.data := by
    rw [stack_of_pop hexp, ← stack_of_consume hcon, stack_of_pop hbase]
  rw [stack_of_pushAdvance h]
  simp [operand, hdata]

theorem stack_of_ternaryOp (h : ternaryOp cost f s = .ok () s') :
    s'.stack.data = f (s.operand 2) (s.operand 1) (s.operand 0) :: s.stack.data.drop 3 := by
  obtain ⟨_, t, hcon, h⟩ := bind_eq_ok.mp h
  obtain ⟨n, t₁, hn, h⟩ := bind_eq_ok.mp h
  obtain ⟨b, t₂, hb, h⟩ := bind_eq_ok.mp h
  obtain ⟨a, t₃, ha, h⟩ := bind_eq_ok.mp h
  have hdata : s.stack.data = n :: b :: a :: t₃.stack.data := by
    rw [← stack_of_consume hcon, stack_of_pop hn, stack_of_pop hb, stack_of_pop ha]
  rw [stack_of_pushAdvance h]
  simp [operand, hdata]

theorem of_checkStack_eq_ok (h : checkStack f s = .ok () s') : s' = s := by
  unfold checkStack at h
  split at h
  · cases h
    rfl
  · cases h

section
variable [StateDB S] [Crypto]

theorem arm_of_executeOpcode (h : executeOpcode op s = .ok () s') : arm op s = .ok () s' := by
  obtain ⟨_, t, hpro, harm⟩ := bind_eq_ok.mp h
  obtain ⟨_, t', hreq, hlim⟩ := bind_eq_ok.mp hpro
  rwa [of_checkStack_eq_ok hlim, of_checkStack_eq_ok hreq] at harm

/-- The result with the operands taken in the other order. -/
def reversed (s : Interpreter S) (op : Opcode) (f : U256 → U256 → U256 → U256) : U256 :=
  if op.stackInputs = 2 then f (s.operand 1) (s.operand 0) (s.operand 2)
  else f (s.operand 2) (s.operand 1) (s.operand 0)

theorem stack_of_executeOpcode (hop : yellowPaper op = some f)
    (h : executeOpcode op s = .ok () s') :
    s'.stack.data = s.reversed op f :: s.stack.data.drop op.stackInputs := by
  replace h := arm_of_executeOpcode h
  cases op
  case SUB =>
    cases hop
    exact stack_of_binaryOp h
  case DIV =>
    cases hop
    rw [stack_of_binaryOp h, div_eq_ofNat]
    rfl
  case SDIV =>
    cases hop
    rw [stack_of_binaryOp h, signedDiv_eq_ofInt]
    rfl
  case MOD =>
    cases hop
    rw [stack_of_binaryOp h, mod_eq_ofNat]
    rfl
  case SMOD =>
    cases hop
    rw [stack_of_binaryOp h, signedMod_eq_ofInt]
    rfl
  case EXP =>
    cases hop
    rw [stack_of_exp h, overflowingPow_eq]
    rfl
  case LT =>
    cases hop
    exact stack_of_binaryOp h
  case GT =>
    cases hop
    exact stack_of_binaryOp h
  case SLT =>
    cases hop
    rw [stack_of_binaryOp h, slt_eq]
    rfl
  case SGT =>
    cases hop
    rw [stack_of_binaryOp h, sgt_eq_slt, slt_eq]
    rfl
  case ADDMOD =>
    cases hop
    rw [stack_of_ternaryOp h, addmod, ite_isZero]
    rfl
  case MULMOD =>
    cases hop
    rw [stack_of_ternaryOp h, mulmod, ite_isZero]
    rfl
  all_goals cases hop

/-- The twelve opcodes, when they succeed, give the result of the Yellow Paper exactly when its
function does not depend on the order of the operands that are there. -/
theorem yellowPaper_result_iff {f : U256 → U256 → U256 → U256} (hop : yellowPaper op = some f)
    (h : executeOpcode op s = .ok () s') :
    s'.stack.data =
        f (s.operand 0) (s.operand 1) (s.operand 2) :: s.stack.data.drop op.stackInputs ↔
      f (s.operand 0) (s.operand 1) (s.operand 2) = s.reversed op f := by
  rw [stack_of_executeOpcode hop h, List.cons.injEq, and_iff_left rfl]
  exact eq_comm

end

open Unhashed

def oneOverThree : Interpreter (HashMap Address Account) :=
  { Interpreter.new (createTestContext [0x03] 100) ∅ with stack := ⟨[1, 3]⟩ }

/-- `SUB` on 1 over 3 pushes 3 - 1. -/
theorem sub_reversed :
    ∃ s', executeOpcode .SUB oneOverThree = .ok () s' ∧ s'.stack.data = [2] ∧ 1 - 3 ≠ (2 : U256) :=
  ⟨_, rfl, rfl, by decide⟩

theorem yellowPaper_result_of_sub :
    ∃ s', executeOpcode .SUB oneOverThree = .ok () s' ∧
      (s'.stack.data = [1 - 3] ↔ (1 - 3 : U256) = 3 - 1) := by
  refine ⟨_, rfl, ?_⟩
  have hop : yellowPaper .SUB = some fun x y _ => x - y := rfl
  exact yellowPaper_result_iff (s := oneOverThree) hop rfl

end Interpreter

end EthereumRust.Evm
