import EthereumRust.Core.Block

/-!
# The next base fee (`crates/engine/src/payload.rs`, `crates/mev/src/builder.rs`)

The payload builder of the engine and the block builder of the MEV crate each compute the base fee
of the next block. Both follow EIP-1559 up to the smallest fees. Above the target the rule raises
the fee by at least one, which the engine does not; below the target both make a fee of zero into
one.
-/

namespace EthereumRust

open Rust EthereumRust.Core BitVec

def U256.max (a b : U256) : U256 := if a ≤ b then b else a

def feeDelta (parentBaseFee gasUsedDelta parentGasTarget : U256) : Checked U256 := do
  let product ← parentBaseFee.mul gasUsedDelta
  let quotient ← product.div parentGasTarget
  quotient.div 8

namespace Engine.PayloadBuilder

def baseFeeDelta (parentBaseFee parentGasUsed parentGasTarget : U256) : Checked U256 :=
  if parentGasUsed > parentGasTarget then do
    let gasUsedDelta ← parentGasUsed.sub parentGasTarget
    feeDelta parentBaseFee gasUsedDelta parentGasTarget
  else do
    let gasUsedDelta ← parentGasTarget.sub parentGasUsed
    feeDelta parentBaseFee gasUsedDelta parentGasTarget

def calculateBaseFee (parent : Block) : Checked U256 := do
  let parentBaseFee := parent.header.baseFeePerGas.getD 1000000000
  let parentGasUsed := parent.header.gasUsed
  let parentGasTarget ← parent.header.gasLimit.div 2
  if parentGasUsed = parentGasTarget then return parentBaseFee
  else
    let baseFeeDelta ← baseFeeDelta parentBaseFee parentGasUsed parentGasTarget
    if parentGasUsed > parentGasTarget then
      parentBaseFee.add baseFeeDelta
    else if parentBaseFee > baseFeeDelta then
      parentBaseFee.sub baseFeeDelta
    else return 1

end Engine.PayloadBuilder

namespace Mev.BlockBuilder

def calculateBaseFee (parent : Block) : Checked U256 := do
  let parentBaseFee := parent.header.baseFeePerGas.getD 1000000000
  let parentGasUsed := parent.header.gasUsed
  let parentGasTarget ← parent.header.gasLimit.div 2
  if parentGasUsed = parentGasTarget then return parentBaseFee
  else if parentGasUsed > parentGasTarget then
    let gasUsedDelta ← parentGasUsed.sub parentGasTarget
    let baseFeeDelta ← feeDelta parentBaseFee gasUsedDelta parentGasTarget
    parentBaseFee.add (baseFeeDelta.max 1)
  else
    let gasUsedDelta ← parentGasTarget.sub parentGasUsed
    let baseFeeDelta ← feeDelta parentBaseFee gasUsedDelta parentGasTarget
    return (parentBaseFee.saturatingSub baseFeeDelta).max 1

end Mev.BlockBuilder

/-- By how much the rule of EIP-1559 moves the fee. -/
def eip1559Delta (baseFee distance target : Nat) : Nat := baseFee * distance / target / 8

/-- EIP-1559: the base fee that follows on `baseFee`. -/
def eip1559 (baseFee gasUsed target : Nat) : Nat :=
  if gasUsed = target then baseFee
  else if gasUsed > target then baseFee + max 1 (eip1559Delta baseFee (gasUsed - target) target)
  else baseFee - eip1559Delta baseFee (target - gasUsed) target

theorem eip1559Delta_le (h : distance ≤ tgt) : 8 * eip1559Delta baseFee distance tgt ≤ baseFee := by
  have hquo : baseFee * distance / tgt ≤ baseFee := by
    apply Nat.div_le_of_le_mul
    rw [mul_comm tgt]
    exact Nat.mul_le_mul_left baseFee h
  calc 8 * eip1559Delta baseFee distance tgt ≤ baseFee * distance / tgt := Nat.mul_div_le _ 8
    _ ≤ baseFee := hquo

theorem U256.toNat_max (a : U256) : (a.max b).toNat = Max.max a.toNat b.toNat := by
  unfold U256.max
  split_ifs with hle
  · exact (Nat.max_eq_right hle).symm
  · exact (Nat.max_eq_left (Nat.le_of_not_le hle)).symm

theorem U256.toNat_saturatingSub (a : U256) : (a.saturatingSub b).toNat = a.toNat - b.toNat := by
  unfold U256.saturatingSub
  split_ifs with hle
  · exact toNat_sub_of_le hle
  · exact (Nat.sub_eq_zero_of_le (Nat.le_of_not_le hle)).symm

theorem exists_feeDelta (htgt : 0 < parentGasTarget.toNat)
    (hfits : parentBaseFee.toNat * gasUsedDelta.toNat < 2 ^ 256) :
    ∃ delta, feeDelta parentBaseFee gasUsedDelta parentGasTarget = .ok delta ∧
      delta.toNat = eip1559Delta parentBaseFee.toNat gasUsedDelta.toNat parentGasTarget.toNat := by
  have hpro : (parentBaseFee * gasUsedDelta).toNat =
      parentBaseFee.toNat * gasUsedDelta.toNat := by
    rw [toNat_mul, Nat.mod_eq_of_lt hfits]
  refine ⟨parentBaseFee * gasUsedDelta / parentGasTarget / 8, ?_, ?_⟩
  · rw [feeDelta, Except.bind_eq_ok]
    refine ⟨_, U256.mul_eq_ok.mpr hpro, ?_⟩
    rw [Except.bind_eq_ok]
    exact ⟨_, U256.div_eq_ok.mpr ⟨htgt.ne', toNat_udiv⟩, U256.div_eq_ok.mpr ⟨by decide, toNat_udiv⟩⟩
  · rw [toNat_udiv, toNat_udiv, hpro]
    rfl

section
variable {par : Block}
  (hfee : par.header.baseFeePerGas = some baseFee)
  (htgt : par.header.gasLimit.div 2 = .ok tgt)
include hfee htgt

theorem calculateBaseFee_at_target (h : par.header.gasUsed = tgt) :
    Engine.PayloadBuilder.calculateBaseFee par = .ok baseFee ∧
      Mev.BlockBuilder.calculateBaseFee par = .ok baseFee := by
  rw [Engine.PayloadBuilder.calculateBaseFee, Mev.BlockBuilder.calculateBaseFee, htgt, hfee]
  dsimp only [bind, Except.bind]
  rw [if_pos h, if_pos h]
  exact ⟨rfl, rfl⟩

theorem calculateBaseFee_above (h : tgt < par.header.gasUsed)
    (hdel : feeDelta baseFee (par.header.gasUsed - tgt) tgt = .ok delta) :
    Engine.PayloadBuilder.calculateBaseFee par = baseFee.add delta ∧
      Mev.BlockBuilder.calculateBaseFee par = baseFee.add (delta.max 1) := by
  have hne : par.header.gasUsed ≠ tgt := fun heq => BitVec.lt_irrefl _ (heq ▸ h)
  have hsub : par.header.gasUsed.sub tgt = .ok (par.header.gasUsed - tgt) :=
    if_pos (BitVec.le_of_lt h)
  rw [Engine.PayloadBuilder.calculateBaseFee, Mev.BlockBuilder.calculateBaseFee, htgt, hfee]
  dsimp only [bind, Except.bind, Option.getD_some]
  rw [if_neg hne, if_neg hne, Engine.PayloadBuilder.baseFeeDelta, if_pos h, hsub]
  dsimp only [bind, Except.bind]
  rw [hdel]
  dsimp only
  rw [if_pos h, if_pos h]
  exact ⟨rfl, rfl⟩

theorem calculateBaseFee_below (h : par.header.gasUsed < tgt)
    (hdel : feeDelta baseFee (tgt - par.header.gasUsed) tgt = .ok delta) :
    Engine.PayloadBuilder.calculateBaseFee par =
        (if baseFee > delta then baseFee.sub delta else .ok 1) ∧
      Mev.BlockBuilder.calculateBaseFee par = .ok ((baseFee.saturatingSub delta).max 1) := by
  have hne : par.header.gasUsed ≠ tgt := fun heq => BitVec.lt_irrefl _ (heq ▸ h)
  have hnot : ¬par.header.gasUsed > tgt := fun hlt => BitVec.lt_irrefl _ (BitVec.lt_trans h hlt)
  have hsub : tgt.sub par.header.gasUsed = .ok (tgt - par.header.gasUsed) :=
    if_pos (BitVec.le_of_lt h)
  rw [Engine.PayloadBuilder.calculateBaseFee, Mev.BlockBuilder.calculateBaseFee, htgt, hfee]
  dsimp only [bind, Except.bind, Option.getD_some]
  rw [if_neg hne, if_neg hne, Engine.PayloadBuilder.baseFeeDelta, if_neg hnot, hsub]
  dsimp only [bind, Except.bind]
  rw [hdel]
  dsimp only
  rw [if_neg hnot, if_neg hnot]
  exact ⟨rfl, rfl⟩

end

/-- Both builders compute the fee of EIP-1559. -/
def FollowsRule (parent : Block) (baseFee : U256) : Prop :=
  ∃ fee, Engine.PayloadBuilder.calculateBaseFee parent = .ok fee ∧
    Mev.BlockBuilder.calculateBaseFee parent = .ok fee ∧
    fee.toNat = eip1559 baseFee.toNat parent.header.gasUsed.toNat (parent.header.gasLimit.toNat / 2)

theorem followsRule_above_iff
    (heng : Engine.PayloadBuilder.calculateBaseFee par = baseFee.add delta)
    (hmev : Mev.BlockBuilder.calculateBaseFee par = baseFee.add (delta.max 1))
    (hrule : eip1559 baseFee.toNat par.header.gasUsed.toNat (par.header.gasLimit.toNat / 2) =
      baseFee.toNat + max 1 delta.toNat) :
    FollowsRule par baseFee ↔ 1 ≤ delta.toNat ∧ baseFee.toNat + delta.toNat < 2 ^ 256 := by
  have hone : (1 : U256).toNat = 1 := rfl
  unfold FollowsRule
  rw [heng, hmev, hrule]
  simp only [U256.add_eq_ok, U256.toNat_max]
  constructor
  · rintro ⟨fee, hdel, hmax, -⟩
    omega
  · rintro ⟨hpos, hlt⟩
    refine ⟨.ofNat 256 (baseFee.toNat + delta.toNat), ?_⟩
    rw [U256.toNat_ofNat hlt]
    omega

theorem followsRule_below_iff (heng : Engine.PayloadBuilder.calculateBaseFee par =
      if baseFee > delta then baseFee.sub delta else .ok 1)
    (hmev : Mev.BlockBuilder.calculateBaseFee par = .ok ((baseFee.saturatingSub delta).max 1))
    (hrule : eip1559 baseFee.toNat par.header.gasUsed.toNat (par.header.gasLimit.toNat / 2) =
      baseFee.toNat - delta.toNat)
    (hdel : 8 * delta.toNat ≤ baseFee.toNat) :
    FollowsRule par baseFee ↔ 0 < baseFee.toNat := by
  have hone : (1 : U256).toNat = 1 := rfl
  have hmax : ((baseFee.saturatingSub delta).max 1).toNat =
      max (baseFee.toNat - delta.toNat) 1 := by
    rw [U256.toNat_max, U256.toNat_saturatingSub, hone]
  constructor
  · rintro ⟨fee, -, hfee, hval⟩
    rw [hmev] at hfee
    cases hfee
    omega
  · intro hpos
    have hlt : baseFee > delta := by
      change delta.toNat < baseFee.toNat
      omega
    refine ⟨(baseFee.saturatingSub delta).max 1, ?_, hmev, ?_⟩
    · rw [heng, if_pos hlt, U256.sub_eq_ok]
      omega
    · omega

/-- The two builders agree with the rule exactly at the target, above it if the fee rises by at
least one and fits, and below it if the fee is not zero. -/
theorem calculateBaseFee_rule_iff (par : Block) (baseFee : U256)
    (hfee : par.header.baseFeePerGas = some baseFee)
    (hlim : 2 ≤ par.header.gasLimit.toNat)
    (hrai : baseFee.toNat *
      (par.header.gasUsed.toNat - par.header.gasLimit.toNat / 2) < 2 ^ 256)
    (hlow : baseFee.toNat *
      (par.header.gasLimit.toNat / 2 - par.header.gasUsed.toNat) < 2 ^ 256) :
    let gasUsed := par.header.gasUsed.toNat
    let tgt := par.header.gasLimit.toNat / 2
    FollowsRule par baseFee ↔
      gasUsed = tgt ∨
      (tgt < gasUsed ∧ 1 ≤ eip1559Delta baseFee.toNat (gasUsed - tgt) tgt ∧
        baseFee.toNat + eip1559Delta baseFee.toNat (gasUsed - tgt) tgt < 2 ^ 256) ∨
      (gasUsed < tgt ∧ 0 < baseFee.toNat) := by
  intro gasUsed tgt
  obtain ⟨word, htgt⟩ : ∃ word, par.header.gasLimit.div 2 = .ok word :=
    ⟨_, U256.div_eq_ok.mpr ⟨by decide, toNat_udiv⟩⟩
  have hword : word.toNat = tgt := (U256.div_eq_ok.mp htgt).2
  have hpos : 0 < word.toNat := by omega
  obtain hbel | heq | habv := Nat.lt_trichotomy gasUsed tgt
  · have hlt : par.header.gasUsed < word := lt_def.mpr (hword ▸ hbel)
    have hdis : (word - par.header.gasUsed).toNat = tgt - gasUsed := by
      rw [toNat_sub_of_le (BitVec.le_of_lt hlt), hword]
    obtain ⟨delta, hdel, hval⟩ := exists_feeDelta hpos (hdis ▸ hlow)
    rw [hdis, hword] at hval
    obtain ⟨heng, hmev⟩ := calculateBaseFee_below hfee htgt hlt hdel
    have hrule : eip1559 baseFee.toNat gasUsed tgt = baseFee.toNat - delta.toNat := by
      rw [eip1559, if_neg hbel.ne, if_neg (not_lt.mpr hbel.le), hval]
    have hsm : 8 * delta.toNat ≤ baseFee.toNat := hval ▸ eip1559Delta_le (Nat.sub_le _ _)
    rw [followsRule_below_iff heng hmev hrule hsm]
    omega
  · obtain ⟨heng, hmev⟩ :=
      calculateBaseFee_at_target hfee htgt (eq_of_toNat_eq (heq.trans hword.symm))
    have hrule : FollowsRule par baseFee := ⟨baseFee, heng, hmev, (if_pos heq).symm⟩
    exact iff_of_true hrule (.inl heq)
  · have hlt : word < par.header.gasUsed := lt_def.mpr (hword ▸ habv)
    have hdis : (par.header.gasUsed - word).toNat = gasUsed - tgt := by
      rw [toNat_sub_of_le (BitVec.le_of_lt hlt), hword]
    obtain ⟨delta, hdel, hval⟩ := exists_feeDelta hpos (hdis ▸ hrai)
    rw [hdis, hword] at hval
    obtain ⟨heng, hmev⟩ := calculateBaseFee_above hfee htgt hlt hdel
    have hrule : eip1559 baseFee.toNat gasUsed tgt = baseFee.toNat + max 1 delta.toNat := by
      rw [eip1559, if_neg habv.ne', if_pos habv, hval]
    rw [followsRule_above_iff heng hmev hrule]
    omega

def fullBlock (baseFee : U256) : Block :=
  .new { Header.new with gasLimit := 30000000, gasUsed := 30000000, baseFeePerGas := some baseFee }

theorem calculateBaseFee_full_block : FollowsRule (fullBlock 1000000000) 1000000000 :=
  (calculateBaseFee_rule_iff (fullBlock 1000000000) 1000000000 rfl (by decide) (by decide)
    (by decide)).mpr (.inr (.inl ⟨by decide, by decide, by decide⟩))

/-- At a fee of seven the delta is zero: the engine keeps the fee, and the other builder raises it
by one. -/
theorem calculateBaseFee_seven :
    Engine.PayloadBuilder.calculateBaseFee (fullBlock 7) = .ok 7 ∧
      Mev.BlockBuilder.calculateBaseFee (fullBlock 7) = .ok 8 ∧
      eip1559 7 30000000 (30000000 / 2) = 8 := by
  refine ⟨by decide, by decide, by decide⟩

end EthereumRust
