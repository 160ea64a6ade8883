import EthereumRust.Evm.StepRules

/-!
# The families of arms meet their specification
-/

namespace EthereumRust.Evm

open Rust List

namespace Interpreter
open Method

variable {S : Type} {s : Interpreter S}

section
variable [StateDB S] {op : Opcode} {gas : Gas}

theorem completes_result {c : Checked U256} (hkind : op.kind = .plain) (hgas : s.gas.Spent amt gas)
    (hstk : rest.length + 1 + op.stackInputs = s.stack.data.length + op.stackOutputs)
    (hroom : rest.length < STACK_LIMIT) (hov : s.Overflows op ↔ ∃ p, c = .error p) :
    Completes op s { s with stack := ⟨rest⟩, gas } (do push (← c); advance) := by
  refine completes_checked ?_ fun p hp => .inl (hov.mpr ⟨p, hp⟩)
  intro v hv
  refine completes_push hkind hgas hstk hroom fun h => ?_
  obtain ⟨p, hp⟩ := hov.mp h
  cases hv.symm.trans hp

section
variable (hrdy : Ready op s)
include hrdy

theorem binaryOp_spec (hkind : op.kind = .plain) (hin : op.stackInputs = 2)
    (hout : op.stackOutputs = 1)
    (hov : s.Overflows op ↔ s.gas.Affords cost ∧ ∃ p, f (s.operand 1) (s.operand 0) = .error p) :
    Completes op s s (binaryOp cost f) := by
  obtain ⟨b, a, rest, hb, -⟩ := exists_two_of_le (hin ▸ hrdy.inputs)
  have hroom := hrdy.room
  have hops : s.operand 1 = a ∧ s.operand 0 = b := by simp [operand, hb]
  rw [hops.1, hops.2] at hov
  refine completes_charge (.refl _) (le_refl _) (fun h hv => h (hov.mp hv).1) fun hgas => ?_
  refine completes_pop hb (completes_pop rfl (completes_result hkind hgas.spent ?_ ?_ ?_))
  · simp only [hin, hout, hb, length_cons]
  · simp only [hb, length_cons] at hroom
    omega
  · exact hov.trans (and_iff_right hgas)

theorem ternaryOp_spec (hkind : op.kind = .plain) (hin : op.stackInputs = 3)
    (hout : op.stackOutputs = 1) (hno : ¬s.Overflows op) : Completes op s s (ternaryOp cost f) := by
  obtain ⟨n, b, a, rest, hn, -⟩ := exists_three_of_le (hin ▸ hrdy.inputs)
  have hroom := hrdy.room
  refine completes_charge (.refl _) (le_refl _) (fun _ => hno) fun hgas => ?_
  refine completes_pop hn (completes_pop rfl (completes_pop rfl ?_))
  refine completes_push hkind hgas.spent ?_ ?_ hno
  · simp only [Balanced, hin, hout, hn, length_cons]
  · simp only [hn, length_cons] at hroom
    omega

theorem unaryOp_spec (hkind : op.kind = .plain) (hin : op.stackInputs = 1)
    (hout : op.stackOutputs = 1)
    (hov : ∀ stack gas, s.Overflows op ↔
      s.gas.Affords cost ∧ ∃ p, f { s with stack, gas } (s.operand 0) = .error p) :
    Completes op s s (unaryOp cost f) := by
  obtain ⟨a, rest, ha, -⟩ := exists_cons_of_le (hin ▸ hrdy.inputs)
  have hroom := hrdy.room
  have hop : s.operand 0 = a := by simp [operand, ha]
  rw [hop] at hov
  have hov := hov ⟨rest⟩ (s.gas.spend cost)
  refine completes_charge (.refl _) (le_refl _) (fun h hv => h (hov.mp hv).1) fun hgas => ?_
  refine completes_pop ha (completes_read rfl (completes_result hkind hgas.spent ?_ ?_ ?_))
  · simp only [hin, hout, ha, length_cons]
  · simp only [ha, length_cons] at hroom
    omega
  · exact hov.trans (and_iff_right hgas)

theorem queryOp_spec (hkind : op.kind = .plain) (hin : op.stackInputs = 1)
    (hout : op.stackOutputs = 1)
    (hov : ∀ stack gas, s.Overflows op ↔
      s.gas.Affords cost ∧ ∃ p, f { s with stack, gas } (s.operand 0) = .error p) :
    Completes op s s (queryOp cost f) := by
  obtain ⟨a, rest, ha, -⟩ := exists_cons_of_le (hin ▸ hrdy.inputs)
  have hroom := hrdy.room
  have hlen : rest.length ≤ s.stack.data.length := by simp [ha]
  have hop : s.operand 0 = a := by simp [operand, ha]
  rw [hop] at hov
  have hov := hov ⟨rest⟩ (s.gas.spend cost)
  refine completes_pop ha ?_
  refine completes_charge (.refl _) hlen (fun h hv => h (hov.mp hv).1) fun hgas => ?_
  refine completes_read rfl (completes_result hkind hgas.spent ?_ ?_ ?_)
  · simp only [hin, hout, ha, length_cons]
  · simp only [ha, length_cons] at hroom
    omega
  · exact hov.trans (and_iff_right hgas)

theorem pushOp_spec (hkind : op.kind = .plain) (hin : op.stackInputs = 0)
    (hout : op.stackOutputs = 1) (hno : ¬s.Overflows op) : Completes op s s (pushOp cost f) := by
  have hroom := hrdy.room
  rw [hin, hout] at hroom
  refine completes_charge (.refl _) (le_refl _) (fun _ => hno) fun hgas => ?_
  refine completes_read rfl (completes_push hkind hgas.spent ?_ hroom hno)
  simp only [Balanced, hin, hout, length_cons]

end

variable {stack : Stack} {size : U256}

theorem completes_copyCharge
    (hov : wordBound ≤ size.toNat + 31 → s.Overflows op) (hok : size.toNat + 31 < wordBound →
      Completes op s { s with stack, gas } (f (GasCost.copyCharge size))) :
    Completes op s { s with stack, gas } (liftM (GasCost.copyGasCost size) >>= f) := by
  by_cases h : size.toNat + 31 < wordBound
  · rw [GasCost.copyGasCost_of_lt h]
    exact completes_value (hok h)
  · obtain ⟨p, hp⟩ := GasCost.copyGasCost_of_le (Nat.le_of_not_lt h)
    rw [hp]
    exact completes_panic (hov (Nat.le_of_not_lt h))

theorem completes_payCopy {f : Unit → Exec S Unit} (hgas : s.gas.Grows gas)
    (hstk : stack.data.length ≤ s.stack.data.length)
    (hov : s.Overflows op ↔
      wordBound ≤ size.toNat + 31 ∨ gas.Affords (GasCost.copyCharge size) ∧ later)
    (hok : size.toNat + 31 < wordBound → gas.Affords (GasCost.copyCharge size) →
      (s.Overflows op ↔ later) →
      Completes op s { s with stack, gas := gas.spend (GasCost.copyCharge size) } (f ())) :
    Completes op s { s with stack, gas }
      (liftM (GasCost.copyGasCost size) >>= fun cost => consume cost >>= f) := by
  refine completes_copyCharge (fun h => hov.mpr (.inl h)) fun hsize => ?_
  rw [or_iff_right (not_le.mpr hsize)] at hov
  refine completes_charge hgas hstk (fun hpoor hv => hpoor (hov.mp hv).1) fun hrich => ?_
  rw [and_iff_right hrich] at hov
  exact hok hsize hrich hov

theorem completes_copy {memOffset : U256} (hkind : op.kind = .write)
    (hgas : s.gas.Spent (s.writeCharge op) gas) (hstk : Balanced op s stack)
    (hlen : stack.data.length ≤ s.stack.data.length) (hdata : data.length = size.toNat)
    (hend : s.writeEnd op = if size.toNat = 0 then 0 else memOffset.toNat + size.toNat)
    (hov : s.Overflows op ↔ wordBound ≤ memOffset.toNat) : Completes op s { s with stack, gas }
      (do let memOffset ← memOffset.asUsize; onMemory (·.set memOffset data); advance) := by
  refine completes_asUsize hov.mpr fun hlt => ?_
  refine completes_write hkind hgas hstk hlen ?_ (fun e => memory_set_error) ?_
  · intro mem hset
    rw [hend]
    by_cases hzero : size.toNat = 0
    · have hnil : data = [] := eq_nil_of_length_eq_zero (hdata.trans hzero)
      rw [if_pos hzero, Memory.len_set_nil (hnil ▸ hset)]
      exact ⟨(Nat.max_zero _).symm, by decide⟩
    · have hne : data ≠ [] := fun h => hzero (by rw [← hdata, h]; rfl)
      rw [if_neg hzero, ← hdata]
      exact Memory.len_set hset hne
  · intro h
    exact absurd (hov.mp h) (not_le.mpr hlt)

theorem completes_sliceCopy {memOffset dataOffset : U256}
    (hkind : op.kind = .write) (hgas : s.gas.Spent (s.writeCharge op) gas)
    (hstk : Balanced op s stack) (hlen : stack.data.length ≤ s.stack.data.length)
    (hend : s.writeEnd op = if size.toNat = 0 then 0 else memOffset.toNat + size.toNat)
    (hov : s.Overflows op ↔ SliceOverflows src dataOffset size ∨ wordBound ≤ memOffset.toNat) :
    Completes op s { s with stack, gas } (do
      let data ← getSlice src dataOffset size
      let memOffset ← memOffset.asUsize
      onMemory (·.set memOffset data)
      advance) := by
  rcases getSlice_spec dataOffset with
    ⟨data, hdata, hsize, hsl⟩ | ⟨⟨p, hp⟩, hsl⟩
  · rw [hdata]
    rw [or_iff_right hsl] at hov
    exact completes_value (completes_copy hkind hgas hstk hlen hsize hend hov)
  · rw [hp]
    exact completes_panic (hov.mpr (.inl hsl))

theorem copyOp_spec (hrdy : Ready op s)
    (hkind : op.kind = .write) (hin : op.stackInputs = 3) (hout : op.stackOutputs = 0)
    (hsrc : ∀ stack gas, src { s with stack, gas } = src s)
    (hcha : s.writeCharge op = (GasCost.copyCharge (s.operand 2)).toNat) (hend : s.writeEnd op =
      if (s.operand 2).toNat = 0 then 0 else (s.operand 0).toNat + (s.operand 2).toNat)
    (hov : s.Overflows op ↔ wordBound ≤ (s.operand 2).toNat + 31 ∨
      s.gas.Affords (GasCost.copyCharge (s.operand 2)) ∧
        (SliceOverflows (src s) (s.operand 1) (s.operand 2) ∨ wordBound ≤ (s.operand 0).toNat)) :
    Completes op s s (copyOp src) := by
  obtain ⟨m, d, size, rest, hm, -⟩ := exists_three_of_le (hin ▸ hrdy.inputs)
  have hops : s.operand 0 = m ∧ s.operand 1 = d ∧ s.operand 2 = size := by simp [operand, hm]
  rw [hops.1, hops.2.1, hops.2.2] at hov
  rw [hops.1, hops.2.2] at hend
  rw [hops.2.2] at hcha
  have hrest : rest.length ≤ s.stack.data.length := by
    simp only [hm, length_cons]
    omega
  refine completes_pop hm (completes_pop rfl (completes_pop rfl ?_))
  refine completes_payCopy (.refl _) hrest hov fun _ hgas hov => ?_
  refine completes_read (hsrc _ _) ?_
  refine completes_sliceCopy hkind (hcha ▸ hgas.spent) ?_ hrest hend hov
  simp only [Balanced, hin, hout, hm, length_cons]

theorem storeOp_spec {store : Nat → U256 → Memory → Except EvmError Memory}
    (hrdy : Ready op s) (hkind : op.kind = .write) (hin : op.stackInputs = 2)
    (hout : op.stackOutputs = 0) (hcha : s.writeCharge op = GasCost.VERYLOW.toNat)
    (hend : s.writeEnd op = (s.operand 0).toNat + width) (hov : s.Overflows op ↔
      s.gas.Affords GasCost.VERYLOW ∧ wordBound ≤ (s.operand 0).toNat)
    (hok : ∀ {off value mem}, store off value s.memory = .ok mem →
      mem.len = max s.memory.len (off + width) ∧ off + width < wordBound)
    (herr : ∀ {off value e}, store off value s.memory = .error e → e = .InvalidMemoryAccess) :
    Completes op s s (do
      consume GasCost.VERYLOW
      let off ← pop
      let value ← pop
      let off ← off.asUsize
      onMemory (store off value)
      advance) := by
  obtain ⟨off, value, rest, ho, -⟩ := exists_two_of_le (hin ▸ hrdy.inputs)
  have hop : s.operand 0 = off := by simp [operand, ho]
  rw [hop] at hov hend
  refine completes_charge (.refl _) (le_refl _) (fun h hv => h (hov.mp hv).1) fun hgas => ?_
  refine completes_pop ho (completes_pop rfl ?_)
  refine completes_asUsize (fun h => hov.mpr ⟨hgas, h⟩) fun hoff => ?_
  refine completes_write hkind (hcha ▸ hgas.spent) ?_ ?_ ?_ (fun e => herr) ?_
  · simp only [Balanced, hin, hout, ho, length_cons]
  · simp only [ho, length_cons]
    omega
  · intro mem hset
    rw [hend]
    exact hok hset
  · intro hv
    exact not_le.mpr hoff (hov.mp hv).2

theorem returnOp_spec {mk : List UInt8 → UInt64 → ExecutionResult} (hrdy : Ready op s)
    (hkind : op.kind = .halt) (hin : op.stackInputs = 2)
    (hmk : ∀ data used, (mk data used).logs = [] ∧ ∀ reason, (mk data used).status ≠ .Halt reason)
    (hov : s.Overflows op ↔ wordBound ≤ (s.operand 0).toNat ∨ wordBound ≤ (s.operand 1).toNat) :
    Completes op s s (returnOp mk) := by
  obtain ⟨off, size, rest, ho, -⟩ := exists_two_of_le (hin ▸ hrdy.inputs)
  have hops : s.operand 0 = off ∧ s.operand 1 = size := by simp [operand, ho]
  rw [hops.1, hops.2] at hov
  refine completes_pop ho (completes_pop rfl ?_)
  refine completes_asUsize (fun h => hov.mpr (.inl h)) fun hoff => ?_
  refine completes_asUsize (fun h => hov.mpr (.inr h)) fun hsize => ?_
  refine ⟨⟨.halt hkind (hmk _ _).1 ?_ (hmk _ _).2, ?_⟩⟩
  · simp only [ho, length_cons]
    omega
  · intro h
    rcases hov.mp h with h | h
    · exact absurd h (not_le.mpr hoff)
    · exact absurd h (not_le.mpr hsize)

end

end Interpreter

end EthereumRust.Evm
