import EthereumRust.Evm.Run

/-!
# Instruction boundaries

An instruction is an opcode byte with its immediate bytes. `jump` accepts every byte `0x5b` as a
target, also one among immediate bytes.
-/

namespace EthereumRust.Evm
open Rust

def instructionSize (byte : UInt8) : Nat :=
  1 + ((Opcode.fromU8 byte).bind Opcode.pushBytes).getD 0

/-- The positions reached from 0 by skipping whole instructions. -/
inductive Boundary (code : List UInt8) : Nat → Prop where
  | zero : Boundary code 0
  | next {i : Nat} (hi : i < code.length) :
    Boundary code i → Boundary code (i + instructionSize code[i])

namespace Interpreter
open Loop

section
variable {s : Interpreter S}

/-- The counter is at an instruction, not within the data of a push, or past the code. -/
def AtBoundary (s : Interpreter S) : Prop :=
  s.context.code.length ≤ s.pc ∨ Boundary s.context.code s.pc

theorem boundary_next (h : Boundary s.context.code s.pc) (hop : s.fetched = some op) :
    Boundary s.context.code (s.pc + 1 + op.pushBytes.getD 0) := by
  have hpc := fetched_pc_lt hop
  have hnext := h.next hpc
  unfold fetched at hop
  rw [List.getElem?_eq_getElem hpc, Option.bind_some] at hop
  rw [instructionSize, hop, ← add_assoc] at hnext
  exact hnext

variable [StateDB S]

theorem Steps.atBoundary (h : Steps op s s') (hs : AtBoundary s)
    (hjump : Jumps op s → Boundary s.context.code (s.operand 0).toNat) : AtBoundary s' := by
  have hpc := fetched_pc_lt h.fetched
  have hbou := hs.resolve_left (not_le.mpr hpc)
  unfold AtBoundary
  rw [h.effect.context]
  by_cases hj : Jumps op s
  · rw [(h.pc_of_jumps hj).1]
    exact .inr (hjump hj)
  · rw [h.pc_of_not_jumps hj]
    rcases Nat.le_total (s.pc + 1 + op.pushBytes.getD 0) s.context.code.length with hle | hge
    · rw [Nat.min_eq_left hle]
      exact .inr (boundary_next hbou h.fetched)
    · rw [Nat.min_eq_right hge]
      exact .inl (le_refl _)

end

/-- The program counter is past the end or on a boundary in every machine of a run exactly when
every jump that the run takes has its operand on a boundary. -/
theorem visited_atBoundary_iff {S : Type} [StateDB S] [Crypto] (ctx : ExecutionContext) (db : S) :
    (∀ s, Visited (.new ctx db) s → AtBoundary s) ↔
    ∀ s s' op, Reaches turn (.new ctx db) s → s.turn = .next s' → s.fetched = some op →
      Jumps op s → Boundary ctx.code (s.operand 0).toNat := by
  constructor
  · intro h s s' op hr hturn hop hj
    have hstep := turn_next_of_fetched hturn hop
    obtain ⟨hdest, hlt, -⟩ := hstep.pc_of_jumps hj
    have hctx := reaches_context hr
    have hs' := h s' (.inl (hr.tail hturn))
    unfold AtBoundary at hs'
    rw [hstep.effect.context, hdest] at hs'
    rw [hdest] at hlt
    have hbou := hs'.resolve_left (not_le.mpr hlt)
    rw [hctx] at hbou
    exact hbou
  · intro h
    have hrea (s : Interpreter S) (hr : Reaches turn (.new ctx db) s) : AtBoundary s := by
      refine hr.induct AtBoundary (.inr .zero) ?_
      intro a b ha hinv hturn
      obtain ⟨op, hstep⟩ := turn_next hturn
      refine hstep.atBoundary hinv ?_
      intro hj
      rw [reaches_context ha]
      exact h a b op ha hturn hstep.fetched hj
    intro s H
    obtain ⟨a, hr, hfrm, -⟩ := H.exists_reaches rfl
    rw [hfrm]
    exact hrea a hr

/-- `PUSH1 4`, `JUMP`, `PUSH1 0x5b`. -/
def hiddenJumpdest : ExecutionContext := createTestContext [0x60, 0x04, 0x56, 0x60, 0x5b] 100

theorem boundary_hiddenJumpdest (h : Boundary hiddenJumpdest.code i) :
    i = 0 ∨ i = 2 ∨ i = 3 ∨ 5 ≤ i := by
  induction h with
  | zero => exact .inl rfl
  | next hi _ ih =>
    rcases ih with rfl | rfl | rfl | hge
    · exact .inr (.inl rfl)
    · exact .inr (.inr (.inl rfl))
    · exact .inr (.inr (.inr (le_refl 5)))
    · exact absurd hi (not_lt.mpr hge)

open Unhashed in
/-- The `JUMPDEST` byte that is jumped to is the data of a push. -/
theorem jump_into_push_data :
    ∃ s, Visited (.new hiddenJumpdest (∅ : HashMap Address Account)) s ∧ s.pc = 4 ∧
      ¬AtBoundary s := by
  refine ⟨_, .inl (Reaches.tail (Reaches.tail .refl rfl) rfl), rfl, ?_⟩
  intro h
  rcases h with hend | hbou
  · revert hend
    decide
  · have := boundary_hiddenJumpdest hbou
    revert this
    decide

end Interpreter

end EthereumRust.Evm
