import EthereumRust.Evm.StackSafety

/-!
# Gas for memory

`memory_gas_cost` gives the price of a memory, but no arm charges it: a copy or a store pays a fixed
amount and the number of words copied, whatever the address.
-/

namespace EthereumRust.Evm
open Rust

theorem U256.toNat_ofUsize (h : n < wordBound) : (U256.ofUsize n).toNat = n := by
  exact Nat.mod_eq_of_lt (lt_trans h (by decide))

theorem GasCost.memoryGasCost_le_iff (h : size < wordBound) :
    (∃ cost, memoryGasCost (.ofUsize size) = .ok cost ∧ cost.toNat ≤ gas) ↔
      size + 31 < wordBound ∧ memoryCharge size ≤ gas := by
  have hsize := U256.toNat_ofUsize h
  by_cases hlt : size + 31 < wordBound
  · have hfits : (U256.ofUsize size).toNat + 31 < wordBound := hsize.symm ▸ hlt
    obtain ⟨cost, hcost, hnat⟩ := memoryGasCost_of_lt hfits
    rw [hsize] at hnat
    rw [hcost, ← hnat]
    constructor
    · intro ⟨_, heq, hle⟩
      cases heq
      exact ⟨hlt, hle⟩
    · intro ⟨_, hle⟩
      exact ⟨cost, rfl, hle⟩
  · have hlar : wordBound ≤ (U256.ofUsize size).toNat + 31 :=
      hsize.symm ▸ Nat.le_of_not_lt hlt
    obtain ⟨p, hp⟩ := memoryGasCost_of_le hlar
    rw [hp]
    constructor
    · intro ⟨_, heq, _⟩
      cases heq
    · intro ⟨hlt', _⟩
      exact absurd hlt' hlt

namespace Interpreter
open Loop

section
variable {s s' : Interpreter S}

/-- The gas used covers the memory that is there. -/
def Paid (s : Interpreter S) : Prop :=
  ∃ cost, GasCost.memoryGasCost (.ofUsize s.memory.len) = .ok cost ∧ cost ≤ s.gas.used

theorem paid_iff (h : s.memory.len < wordBound) :
    s.Paid ↔ s.memory.len + 31 < wordBound ∧
      GasCost.memoryCharge s.memory.len ≤ s.gas.used.toNat := by
  rw [← GasCost.memoryGasCost_le_iff h]
  exact Iff.rfl

theorem paid_new (context : ExecutionContext) (db : S) : (Interpreter.new context db).Paid := by
  have hlen : (Interpreter.new context db).memory.len = 0 := rfl
  rw [paid_iff (hlen ▸ Nat.two_pow_pos 64), hlen]
  exact ⟨by decide, Nat.zero_le _⟩

theorem Paid.of_grows (h : s.Paid) (hmem : s'.memory = s.memory)
    (hgas : s.gas.Grows s'.gas) : s'.Paid := by
  obtain ⟨cost, hcost, hle⟩ := h
  refine ⟨cost, ?_, UInt64.le_trans hle hgas.used_le⟩
  rw [hmem]
  exact hcost

variable [StateDB S]

variable [Crypto] {context : ExecutionContext}

theorem Visited.memory_lt (H : Visited (.new context db) s) : s.memory.len < wordBound := by
  refine H.induct (fun s => s.memory.len < wordBound) ?_ ?_ ?_ ?_
  · exact Nat.two_pow_pos 64
  · intro op a b _ _ _ ha heff
    by_cases hkind : op.kind = .write
    · obtain ⟨-, hlen, hend⟩ := heff.of_write hkind
      rw [hlen]
      exact Nat.max_lt.mpr ⟨ha, hend⟩
    · rw [heff.memory hkind]
      exact ha
  · intro e a b ha hflt
    rw [hflt.frame]
    exact ha
  · intro a ha
    exact ha

theorem Steps.paid (h : Steps op s s') (hr : Reaches turn (.new context db) s) (hpaid : s.Paid)
    (hwr : op.kind = .write → ∃ cost, GasCost.memoryGasCost (.ofUsize (s.writeEnd op)) = .ok cost ∧
      cost.toNat ≤ s.gas.used.toNat + s.writeCharge op) : s'.Paid := by
  by_cases hkind : op.kind = .write
  · obtain ⟨hspe, hlen, hend⟩ := h.effect.of_write hkind
    have hmem := Visited.memory_lt (.inl hr)
    have hmem' : s'.memory.len < wordBound := hlen ▸ Nat.max_lt.mpr ⟨hmem, hend⟩
    rw [paid_iff hmem', hlen]
    obtain ⟨hfits, hcost⟩ := (paid_iff hmem).mp hpaid
    have hgro := UInt64.le_iff_toNat_le.mp hspe.grows.used_le
    rcases Nat.le_total (s.writeEnd op) s.memory.len with hle | hge
    · rw [Nat.max_eq_left hle]
      exact ⟨hfits, Nat.le_trans hcost hgro⟩
    · rw [Nat.max_eq_right hge]
      obtain ⟨cost, hcost, hle⟩ := hwr hkind
      -- the meter may saturate, but no cost is above its largest reading
      have hused := hspe.used
      have hbd := toNat_lt_wordBound cost
      have hpay : cost.toNat ≤ s'.gas.used.toNat := by omega
      exact (GasCost.memoryGasCost_le_iff hend).mp ⟨cost, hcost, hpay⟩
  · exact hpaid.of_grows (h.effect.memory hkind) h.effect.gas

theorem Paid.memory_le (H : Visited (.new context db) s) (hpaid : s.Paid) :
    3 * s.memory.len ≤ 32 * context.gasLimit.toNat := by
  have hcost := ((paid_iff H.memory_lt).mp hpaid).2
  have hused := UInt64.le_iff_toNat_le.mp H.withinLimits.used
  have hwor := GasCost.three_mul_le_memoryCharge s.memory.len
  omega

end

/-- In every machine of a run the memory is paid for, and so bounded by the gas limit, exactly
when every write of the run ends at an address whose price is covered by the gas used before it
and its own charge. -/
theorem visited_paid_iff {S : Type} [StateDB S] [Crypto] (context : ExecutionContext) (db : S) :
    (∀ s, Visited (.new context db) s → s.Paid ∧ 3 * s.memory.len ≤ 32 * context.gasLimit.toNat) ↔
    ∀ s s' op, Reaches turn (.new context db) s → s.turn = .next s' → s.fetched = some op →
      op.kind = .write →
      ∃ cost, GasCost.memoryGasCost (.ofUsize (s.writeEnd op)) = .ok cost ∧
        cost.toNat ≤ s.gas.used.toNat + s.writeCharge op := by
  constructor
  · intro h s s' op hr hturn hop hkind
    obtain ⟨hspe, hlen, hend⟩ := (turn_next_of_fetched hturn hop).effect.of_write hkind
    have H' : Visited (.new context db) s' := .inl (hr.tail hturn)
    obtain ⟨hfits, hcost⟩ := (paid_iff H'.memory_lt).mp (h s' H').1
    have hle : s.writeEnd op ≤ s'.memory.len := hlen ▸ le_max_right _ _
    have hused := hspe.used
    have hmono := GasCost.memoryCharge_mono hle
    rw [GasCost.memoryGasCost_le_iff hend]
    omega
  · intro h
    have hrea (s : Interpreter S) (hr : Reaches turn (.new context db) s) : s.Paid := by
      refine hr.induct Paid (paid_new context db) ?_
      intro a b ha hpaid hturn
      obtain ⟨op, hstep⟩ := turn_next hturn
      exact hstep.paid ha hpaid (h a b op ha hturn hstep.fetched)
    intro s H
    obtain ⟨a, hr, hfrm, hgas⟩ := H.exists_reaches rfl
    have hmem : s.memory = a.memory := by rw [hfrm]
    have hpaid : s.Paid := (hrea a hr).of_grows hmem hgas
    exact ⟨hpaid, hpaid.memory_le H⟩

/-- `PUSH0`, `PUSH1 64`, `MSTORE`. -/
def storeAt64 : ExecutionContext := createTestContext [0x5f, 0x60, 0x40, 0x52] 100

open Unhashed in
/-- Memory grows to 96 bytes, and only the price of the opcodes is charged. -/
theorem storeAt64_unpaid :
    ∃ s, Visited (.new storeAt64 (∅ : HashMap Address Account)) s ∧
      s.memory.len = 96 ∧ s.gas.used = 8 ∧ ¬s.Paid := by
  obtain ⟨s, H, hlen, hused⟩ : ∃ s, Visited (.new storeAt64 (∅ : HashMap Address Account)) s ∧
      s.memory.len = 96 ∧ s.gas.used = 8 :=
    ⟨_, .inl (Reaches.tail (Reaches.tail (Reaches.tail .refl rfl) rfl) rfl), rfl, rfl⟩
  refine ⟨s, H, hlen, hused, ?_⟩
  rw [paid_iff H.memory_lt, hlen, hused]
  decide

end Interpreter

end EthereumRust.Evm
