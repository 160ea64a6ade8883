import EthereumRust.Evm.Word

/-!
# What the word helpers compute

The helpers of `interpreter.rs` work on absolute values and bit masks. Here they are the signed
operations of `BitVec`, and so division, remainder and floor of the integers that words stand for in
two's complement.
-/

namespace EthereumRust.Evm

open Rust BitVec List

section
variable (a b : U256)

@[simp] theorem isNegative_eq_msb : isNegative a = a.msb := (msb_eq_getLsbD_last a).symm

@[simp] theorem twosComplement_eq_neg : twosComplement a = -a := (neg_eq_not_add a).symm

@[simp] theorem isZero_eq : a.isZero = decide (a = 0#256) := rfl

theorem signedDiv_eq_sdiv : signedDiv a b = a.sdiv b := by
  by_cases hb : b = 0#256
  · rw [hb, sdiv_zero]
    rfl
  · rw [signedDiv, sdiv_eq]
    cases ha : a.msb <;> cases hb' : b.msb <;> simp [hb, ha, hb']

theorem signedMod_eq_srem (hb : b ≠ 0) : signedMod a b = a.srem b := by
  have hb : ¬ b = 0#256 := hb
  -- the src does not negate a remainder of zero, which makes no difference
  have hneg : ∀ r : U256, r = 0#256 → r = -r := by
    intro r hr
    rw [hr]
    rfl
  rw [signedMod, srem_eq]
  cases ha : a.msb <;> cases hb' : b.msb <;> simp [hb, ha, hb'] <;> apply hneg

theorem signedDiv_eq_ofInt :
    signedDiv a b = if b = 0 then 0 else .ofInt 256 (a.toInt.tdiv b.toInt) := by
  split
  · rename_i hb
    rw [signedDiv, hb]
    rfl
  · rw [signedDiv_eq_sdiv]
    apply toInt_inj.mp
    rw [toInt_sdiv, toInt_ofInt]

theorem ite_isZero (v : U256) : (if b.isZero then 0 else v) = if b = 0 then 0 else v := by
  exact if_congr decide_eq_true_iff rfl rfl

theorem div_eq_ofNat :
    (if b.isZero then 0 else a / b) = if b = 0 then 0 else .ofNat 256 (a.toNat / b.toNat) := by
  rw [ite_isZero]
  congr 1
  apply eq_of_toNat_eq
  rw [toNat_udiv, U256.toNat_ofNat (lt_of_le_of_lt (Nat.div_le_self _ _) a.isLt)]

theorem mod_eq_ofNat :
    (if b.isZero then 0 else a % b) = if b = 0 then 0 else .ofNat 256 (a.toNat % b.toNat) := by
  rw [ite_isZero]
  congr 1
  apply eq_of_toNat_eq
  rw [toNat_umod, U256.toNat_ofNat (lt_of_le_of_lt (Nat.mod_le _ _) a.isLt)]

theorem toInt_signedMod : (signedMod a b).toInt = if b = 0 then 0 else a.toInt.tmod b.toInt := by
  split
  · rename_i hb
    rw [hb]
    rfl
  · rename_i hb
    rw [signedMod_eq_srem a b hb, toInt_srem]

theorem signedMod_eq_ofInt :
    signedMod a b = if b = 0 then 0 else .ofInt 256 (a.toInt.tmod b.toInt) := by
  rw [← ofInt_toInt (x := signedMod a b), toInt_signedMod]
  split
  · rfl
  · rfl

end

theorem getLsbD_MAX (hi : i < 256) : U256.MAX.getLsbD i = true := by
  rw [U256.MAX, getLsbD_allOnes]
  exact decide_eq_true hi

theorem arithmeticShr_eq_sshiftRight :
    arithmeticShr value shift = value.sshiftRight shift.toNat := by
  apply eq_of_getLsbD_eq
  intro i hi
  have hi' : decide (256 ≤ i) = false := decide_eq_false (not_le.mpr hi)
  rw [getLsbD_sshiftRight, arithmeticShr, isNegative_eq_msb, hi', Bool.not_false, Bool.true_and]
  by_cases hshi : shift ≥ 256
  · have hle : 256 ≤ shift.toNat := hshi
    have hout : ¬ shift.toNat + i < 256 := by omega
    rw [if_pos hshi, if_neg hout]
    cases value.msb with
    | false => exact getLsbD_zero
    | true => exact getLsbD_MAX hi
  · rw [if_neg hshi]
    cases hneg : value.msb with
    | false =>
      simp only [Bool.false_eq_true, if_false, getLsbD_ushiftRight]
      split
      · rfl
      · rename_i hout
        exact getLsbD_of_ge value _ (by omega)
    | true =>
      simp only [if_true, getLsbD_or, getLsbD_shiftLeft]
      split
      · have hmask : i < 256 - shift.toNat := by omega
        simp [hmask]
      · -- the bits shifted in are those of the mask
        have hmask : ¬ i < 256 - shift.toNat := by omega
        rw [getLsbD_MAX (by omega)]
        simp [hi, hmask]

theorem toInt_arithmeticShr :
    (arithmeticShr value shift).toInt = value.toInt.fdiv (2 ^ shift.toNat) := by
  rw [arithmeticShr_eq_sshiftRight, toInt_sshiftRight, Int.shiftRight_eq_div_pow,
    Int.fdiv_eq_ediv_of_nonneg _ (Int.le_of_lt (Int.pow_pos (by decide)))]
  rfl

/-- The signed helpers, for all words: the quotient truncated towards zero and reduced to a word,
the remainder with the sign of the dividend, both zero for a zero divisor, and the floor of the
division by a power of two. -/
theorem signed_arithmetic (a b shift : U256) :
    signedDiv a b = (if b = 0 then 0 else .ofInt 256 (a.toInt.tdiv b.toInt)) ∧
      (signedMod a b).toInt = (if b = 0 then 0 else a.toInt.tmod b.toInt) ∧
      (arithmeticShr a shift).toInt = a.toInt.fdiv (2 ^ shift.toNat) :=
  ⟨signedDiv_eq_ofInt a b, toInt_signedMod a b, toInt_arithmeticShr⟩

example : signedDiv (.intMin 256) U256.MAX = .intMin 256 := by decide

theorem slt_eq : slt a b = boolWord (a.toInt < b.toInt) := by
  have ha := a.isLt
  have haInt := toInt_eq_msb_cond a
  have hbInt := toInt_eq_msb_cond b
  rw [slt, isNegative_eq_msb, isNegative_eq_msb]
  cases hma : a.msb <;> cases hmb : b.msb
  all_goals simp only [hma, hmb, if_true, Bool.false_eq_true, if_false] at haInt hbInt
  · have hiff : a < b ↔ a.toInt < b.toInt := by
      rw [lt_def]
      omega
    exact congrArg boolWord (decide_eq_decide.mpr hiff)
  · have hge : ¬ a.toInt < b.toInt := by omega
    exact (congrArg boolWord (decide_eq_false hge)).symm
  · have hlt : a.toInt < b.toInt := by omega
    exact (congrArg boolWord (decide_eq_true hlt)).symm
  · have hiff : a < b ↔ a.toInt < b.toInt := by
      rw [lt_def]
      omega
    exact congrArg boolWord (decide_eq_decide.mpr hiff)

theorem sgt_eq_slt : sgt a b = slt b a := by
  rw [sgt, slt]
  cases ha : a.msb <;> cases hb : b.msb <;> simp [ha, hb, boolWord]

theorem foldl_square_eq (exponent : U256) (hn : n ≤ 256) : (range n).foldl
        (fun acc i => if exponent.bit (255 - i) then acc * acc * base else acc * acc) 1 =
      BitVec.ofNat 256 (base.toNat ^ (exponent.toNat / 2 ^ (256 - n))) := by
  induction n with
  | zero =>
    rw [Nat.div_eq_of_lt exponent.isLt]
    rfl
  | succ n ih =>
    rw [range_succ, foldl_append, ih (Nat.le_of_succ_le hn)]
    have hhigh : exponent.toNat / 2 ^ (256 - n) = exponent.toNat / 2 ^ (255 - n) / 2 := by
      rw [Nat.div_div_eq_div_mul, ← pow_succ]
      congr 2
      omega
    have hlow : exponent.bit (255 - n) = decide (exponent.toNat / 2 ^ (255 - n) % 2 = 1) := by
      rw [U256.bit, BitVec.getLsbD, Nat.testBit_eq_decide_div_mod_eq]
    have hexp : 256 - (n + 1) = 255 - n := by omega
    rw [hhigh, hexp]
    generalize exponent.toNat / 2 ^ (255 - n) = e at hlow
    rw [foldl_cons, foldl_nil, hlow, ← ofNat_mul, ← Nat.pow_add]
    -- twice the half of the exponent is short of it by its lowest bit
    split
    · rename_i hodd
      have hspl : e = e / 2 + e / 2 + 1 := by
        have := of_decide_eq_true hodd
        omega
      conv_rhs =>
        rw [hspl, pow_succ, ofNat_mul, ofNat_toNat, setWidth_eq]
    · rename_i heven
      have hspl : e = e / 2 + e / 2 := by
        have := of_decide_eq_false (Bool.eq_false_iff.mpr heven)
        omega
      conv_rhs => rw [hspl]

theorem overflowingPow_eq (base : U256) :
    base.overflowingPow exponent = BitVec.ofNat 256 (base.toNat ^ exponent.toNat) := by
  rw [U256.overflowingPow, foldl_square_eq exponent (le_refl 256), pow_zero, Nat.div_one]

end EthereumRust.Evm
