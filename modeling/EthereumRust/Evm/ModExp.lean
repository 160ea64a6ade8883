import EthereumRust.Evm.Execution
import EthereumRust.Lib.Padded

/-!
# Modular exponentiation (`precompiled.rs`)

The input announces the lengths of base, exponent and modulus in three words and goes on with the
three numbers. The precompile is meant to read all of it from the input followed by zeros without
end (`expected`). It reads the bytes that are there instead, so a modulus that the input cuts off is
too small by a power of 256.

Numbers are `BigUint`s, and `modpow` is taken to be correct. Allocation is taken to succeed.
-/

namespace EthereumRust.Evm

open Rust Padded List

namespace ModExp

def lengthAt (input : List UInt8) (start stop : Nat) : Checked Nat :=
  if input.length ≥ stop then do
    let word := U256.fromBigEndian (← slice input start stop)
    word.asUsize
  else .ok 0

def expCost (expLen : Nat) : Checked U256 :=
  if expLen = 0 then .ok 1 else (U256.ofUsize expLen).mul 8

def calculateGasCost (baseLen expLen modLen : Nat) : Checked U256 := do
  let maxLen := max baseLen modLen
  let words := (← addUsize maxLen 31) / 32
  let expCost ← expCost expLen
  let square ← mulUsize words words
  let product ← (U256.ofUsize square).mul expCost
  product.div 3

def operand (input : List UInt8) (start len : Nat) : Checked Nat :=
  if input.length > start ∧ len > 0 then do
    let stop := min (← addUsize start len) input.length
    let bytes ← slice input start stop
    return ofBigEndian bytes
  else .ok 0

def modpow (base exp modulus : Nat) : Nat := base ^ exp % modulus

def pad (resultBytes : List UInt8) (modLen : Nat) : List UInt8 :=
  if resultBytes.length < modLen then
    List.replicate (modLen - resultBytes.length) 0 ++ resultBytes
  else resultBytes

def output (input : List UInt8) (baseLen expLen modLen : Nat) : Checked (List UInt8) := do
  let dataStart := 96
  let base ← operand input dataStart baseLen
  let expStart ← addUsize dataStart baseLen
  let exp ← operand input expStart expLen
  let modStart ← addUsize expStart expLen
  let modulus ← operand input modStart modLen
  let result := if modulus = 0 then 0 else modpow base exp modulus
  return pad (toBytesBe result) modLen

def execute (input : List UInt8) (gasLimit : U256) :
    Checked (Except EvmError (List UInt8 × U256)) := do
  let baseLen ← lengthAt input 0 32
  let expLen ← lengthAt input 32 64
  let modLen ← lengthAt input 64 96
  let gasCost ← calculateGasCost baseLen expLen modLen
  if gasCost > gasLimit then return .error .OutOfGas
  else do
    let bytes ← output input baseLen expLen modLen
    return .ok (bytes, gasCost)

/-- The number in the `size` bytes from `offset` on, of the input followed by zeros. -/
def field (input : List UInt8) (offset size : Nat) : Nat :=
  ofBigEndian (read (padded 0 input) offset size)

def baseLength (input : List UInt8) : Nat := field input 0 32

def expLength (input : List UInt8) : Nat := field input 32 32

def modLength (input : List UInt8) : Nat := field input 64 32

def expStart (input : List UInt8) : Nat := 96 + baseLength input

def modStart (input : List UInt8) : Nat := expStart input + expLength input

def power (base exp modulus : Nat) : Nat := if modulus = 0 then 0 else base ^ exp % modulus

def powerModulo (input : List UInt8) (modulus : Nat) : Nat :=
  power (field input 96 (baseLength input)) (field input (expStart input) (expLength input)) modulus

def expected (input : List UInt8) : List UInt8 :=
  toBigEndian (modLength input) (powerModulo input (field input (modStart input) (modLength input)))

/-- The contract answers with `expected`, for a price that the limit does not change. -/
def Correct (input : List UInt8) : Prop :=
  ∃ gasCost, ∀ gasLimit, execute input gasLimit =
    .ok (if gasCost > gasLimit then .error .OutOfGas else .ok (expected input, gasCost))

/-- The number in those of the `size` bytes from `offset` on that the input has. -/
def present (input : List UInt8) (offset size : Nat) : Nat :=
  ofBigEndian ((input.drop offset).take size)

theorem present_eq_field (h : start + len ≤ input.length) :
    present input start len = field input start len := by
  rw [present, field, read_padded_of_le h]

theorem present_of_ge (h : input.length ≤ start) : present input start len = 0 := by
  rw [present, drop_eq_nil_of_le h, take_nil, ofBigEndian_nil]

theorem present_lt : present input start len < 256 ^ len := by
  apply lt_of_lt_of_le (ofBigEndian_lt _)
  apply Nat.pow_le_pow_right (by decide)
  exact length_take_le ..

theorem field_lt : field input start len < 256 ^ len := by
  have h := ofBigEndian_lt (read (padded 0 input) start len)
  rwa [length_read] at h

theorem ofBigEndian_append_zeros :
    ofBigEndian (bytes ++ replicate k 0) = ofBigEndian bytes * 256 ^ k := by
  induction k with
  | zero => rw [replicate_zero, append_nil, pow_zero, mul_one]
  | succ k ih =>
    rw [replicate_succ', ← append_assoc, ofBigEndian_concat, ih, pow_succ, mul_assoc]
    rfl

theorem field_eq_mul : field input start len =
    present input start len * 256 ^ (len - (input.length - start)) := by
  rw [field, read_padded, ofBigEndian_append_zeros, present]

/-- A modulus that lacks its last bytes gives the right power only if that power is below it. -/
theorem power_eq_mul_iff (h : 0 < q) : power b e m = power b e (m * q) ↔
    m = 0 ∨ b ^ e % (m * q) < m := by
  rcases Nat.eq_zero_or_pos m with rfl | hpos
  · rw [zero_mul]
    exact iff_of_true rfl (.inl rfl)
  · rw [power, power, if_neg (ne_of_gt hpos), if_neg (ne_of_gt (Nat.mul_pos hpos h)),
      or_iff_right (ne_of_gt hpos)]
    constructor
    · intro heq
      rw [← heq]
      exact Nat.mod_lt _ hpos
    · intro hlt
      rw [← Nat.mod_mul_right_mod (b ^ e) m q, Nat.mod_eq_of_lt hlt]

theorem powerModulo_lt (h : modulus < 256 ^ n) : powerModulo input modulus < 256 ^ n := by
  unfold powerModulo power
  split_ifs with hzero
  · exact Nat.pow_pos (by decide)
  · exact lt_trans (Nat.mod_lt _ (Nat.pos_of_ne_zero hzero)) h

theorem lengthAt_of_lt (h : input.length < stop) : lengthAt input start stop = .ok 0 :=
  if_neg (not_le.mpr h)

theorem lengthAt_eq_ok (hstop : stop = start + 32) (h : stop ≤ input.length) :
    lengthAt input start stop = .ok n ↔
      n = field input start 32 ∧ field input start 32 < wordBound := by
  subst hstop
  have hsl : slice input start (start + 32) = .ok (read (padded 0 input) start 32) := by
    rw [slice_eq_ok, read_padded_of_le h, Nat.add_sub_cancel_left]
    exact ⟨rfl, Nat.le_add_right _ _, h⟩
  have hword : (U256.fromBigEndian (read (padded 0 input) start 32)).toNat =
      field input start 32 := U256.toNat_ofNat field_lt
  rw [lengthAt, if_pos h, hsl, ← hword]
  exact U256.asUsize_eq_ok

theorem modLength_ne_one (h : input.length < 96) : modLength input ≠ 1 := by
  have hread : read (padded 0 input) 64 32 =
      read (padded 0 input) 64 31 ++ [padded 0 input 95] := read_succ
  rw [modLength, field, hread, ofBigEndian_concat, padded_of_le (Nat.le_of_lt_succ h)]
  change _ * 256 + 0 ≠ 1
  omega

theorem expCost_eq_ok (h : n < wordBound) :
    ∃ cost, expCost n = .ok cost ∧ cost.toNat ≤ 8 * wordBound := by
  unfold expCost
  split_ifs with hzero
  · exact ⟨1, rfl, by decide⟩
  · have hn : (U256.ofUsize n).toNat = n := U256.toNat_ofNat (lt_trans h (by decide))
    have hlt : n * 8 < 2 ^ 256 := by
      unfold wordBound at h
      omega
    refine ⟨.ofNat 256 (n * 8), ?_, ?_⟩
    · rw [U256.mul_eq_ok, U256.toNat_ofNat hlt, hn]
      rfl
    · rw [U256.toNat_ofNat hlt]
      omega

theorem price_returns {words : Nat} {cost : U256} (hwor : words < 2 ^ 32)
    (hcost : cost.toNat ≤ 8 * wordBound) :
    ∃ gasCost, (do
      let square ← mulUsize words words
      let product ← (U256.ofUsize square).mul cost
      product.div 3) = .ok gasCost := by
  have hsqu : words * words < wordBound := lt_of_lt_of_le (Nat.mul_lt_mul'' hwor hwor) (by decide)
  have hword : (U256.ofUsize (words * words)).toNat = words * words :=
    U256.toNat_ofNat (lt_trans hsqu (by decide))
  have hpro : (U256.ofUsize (words * words)).toNat * cost.toNat < 2 ^ 256 := by
    rw [hword]
    exact lt_of_le_of_lt (Nat.mul_le_mul (le_of_lt hsqu) hcost) (by decide)
  have hmul : (U256.ofUsize (words * words)).mul cost = .ok (U256.ofUsize (words * words) * cost) :=
    if_pos hpro
  refine ⟨U256.ofUsize (words * words) * cost / 3, ?_⟩
  rw [Except.bind_eq_ok]
  refine ⟨words * words, mulUsize_eq_ok.mpr ⟨rfl, hsqu⟩, ?_⟩
  rw [hmul]
  rfl

theorem calculateGasCost_returns_iff (hexp : expLen < wordBound) :
    (∃ gasCost, calculateGasCost baseLen expLen modLen = .ok gasCost) ↔
      max baseLen modLen + 31 < 2 ^ 37 := by
  constructor
  · rintro ⟨gasCost, h⟩
    obtain ⟨total, htot, h⟩ := h.of_bind
    obtain ⟨cost, -, h⟩ := h.of_bind
    obtain ⟨square, hsqu, -⟩ := h.of_bind
    obtain ⟨rfl, -⟩ := addUsize_eq_ok.mp htot
    obtain ⟨-, hlt⟩ := mulUsize_eq_ok.mp hsqu
    have hwor : (max baseLen modLen + 31) / 32 < 2 ^ 32 := by
      by_contra hge
      have hle := Nat.mul_le_mul (Nat.le_of_not_lt hge) (Nat.le_of_not_lt hge)
      exact absurd hlt (not_lt.mpr hle)
    omega
  · intro h
    have hadd : addUsize (max baseLen modLen) 31 = .ok (max baseLen modLen + 31) :=
      addUsize_of_lt (lt_trans h (by decide))
    obtain ⟨cost, hcost, hle⟩ := expCost_eq_ok hexp
    have hwor : (max baseLen modLen + 31) / 32 < 2 ^ 32 := by omega
    obtain ⟨gasCost, hgas⟩ := price_returns hwor hle
    exact ⟨gasCost, Except.bind_eq_ok.mpr ⟨_, hadd, Except.bind_eq_ok.mpr ⟨cost, hcost, hgas⟩⟩⟩

theorem operand_eq_ok : operand input start len = .ok v ↔
    v = present input start len ∧ (start < input.length → 0 < len → start + len < wordBound) := by
  unfold operand
  split_ifs with h
  · obtain ⟨hst, hpos⟩ := h
    have hbs : (input.drop start).take (min (start + len) input.length - start) =
        (input.drop start).take len := by
      rw [take_eq_take_iff, length_drop]
      omega
    constructor
    · intro h
      obtain ⟨stop, hstop, h⟩ := h.of_bind
      obtain ⟨bytes, hsl, h⟩ := h.of_bind
      obtain ⟨rfl, hlt⟩ := addUsize_eq_ok.mp hstop
      obtain ⟨rfl, -⟩ := slice_eq_ok.mp hsl
      cases h
      exact ⟨by rw [present, hbs], fun _ _ => hlt⟩
    · rintro ⟨rfl, hlt⟩
      refine Except.bind_eq_ok.mpr ⟨_, addUsize_of_lt (hlt hst hpos), ?_⟩
      refine Except.bind_eq_ok.mpr ⟨_, slice_eq_ok.mpr ⟨rfl, by omega, by omega⟩, ?_⟩
      rw [hbs]
      rfl
  · have hzero : present input start len = 0 := by
      rcases not_and_or.mp h with hst | hpos
      · exact present_of_ge (Nat.le_of_not_lt hst)
      · rw [present, Nat.eq_zero_of_not_pos hpos, take_zero, ofBigEndian_nil]
    rw [hzero, Except.ok.injEq, eq_comm, iff_self_and]
    intro _ hst hpos
    exact absurd ⟨hst, hpos⟩ h

theorem output_eq_ok {baseLen expLen modLen : Nat} : output input baseLen expLen modLen = .ok out ↔
      out = pad (toBytesBe (power (present input 96 baseLen) (present input (96 + baseLen) expLen)
        (present input (96 + baseLen + expLen) modLen))) modLen ∧
      96 + baseLen + expLen < wordBound ∧
      (96 + baseLen + expLen < input.length → 0 < modLen →
        96 + baseLen + expLen + modLen < wordBound) := by
  unfold output
  constructor
  · intro h
    obtain ⟨base, hbase, h⟩ := h.of_bind
    obtain ⟨start, hst, h⟩ := h.of_bind
    obtain ⟨exp, hexp, h⟩ := h.of_bind
    obtain ⟨start', hst', h⟩ := h.of_bind
    obtain ⟨modulus, hmod, h⟩ := h.of_bind
    obtain ⟨rfl, -⟩ := addUsize_eq_ok.mp hst
    obtain ⟨rfl, hlt⟩ := addUsize_eq_ok.mp hst'
    obtain ⟨rfl, -⟩ := operand_eq_ok.mp hbase
    obtain ⟨rfl, -⟩ := operand_eq_ok.mp hexp
    obtain ⟨rfl, hend⟩ := operand_eq_ok.mp hmod
    cases h
    exact ⟨rfl, hlt, hend⟩
  · rintro ⟨rfl, hlt, hend⟩
    have hbase : 96 + baseLen < wordBound := lt_of_le_of_lt (Nat.le_add_right _ _) hlt
    refine Except.bind_eq_ok.mpr ⟨_, operand_eq_ok.mpr ⟨rfl, fun _ _ => hbase⟩, ?_⟩
    refine Except.bind_eq_ok.mpr ⟨_, addUsize_of_lt hbase, ?_⟩
    refine Except.bind_eq_ok.mpr ⟨_, operand_eq_ok.mpr ⟨rfl, fun _ _ => hlt⟩, ?_⟩
    refine Except.bind_eq_ok.mpr ⟨_, addUsize_of_lt hlt, ?_⟩
    exact Except.bind_eq_ok.mpr ⟨_, operand_eq_ok.mpr ⟨rfl, hend⟩, rfl⟩

theorem output_of_modLen_eq_zero (h : output input baseLen expLen 0 = .ok out) : out = [0] := by
  obtain ⟨rfl, -⟩ := output_eq_ok.mp h
  rw [power, if_pos]
  · rfl
  · rw [present, take_zero, ofBigEndian_nil]

theorem pad_toBytesBe (hn : n ≠ 0) (h : v < 256 ^ n) : pad (toBytesBe v) n = toBigEndian n v := by
  rw [← replicate_append_toBytesBe hn h, pad]
  split_ifs with hlt
  · rfl
  · rw [Nat.sub_eq_zero_of_le (Nat.le_of_not_lt hlt), replicate_zero, nil_append]

theorem power_present : power (present input 96 (baseLength input))
    (present input (expStart input) (expLength input)) (present input (modStart input) len) =
      powerModulo input (present input (modStart input) len) := by
  by_cases h : input.length ≤ modStart input
  · rw [present_of_ge h, power, powerModulo, power, if_pos rfl, if_pos rfl]
  · have hexp : expStart input + expLength input ≤ input.length := Nat.le_of_not_le h
    have hbase : 96 + baseLength input ≤ input.length := le_trans (Nat.le_add_right _ _) hexp
    rw [present_eq_field hbase, present_eq_field hexp, powerModulo]

theorem correct_iff_output : Correct input ↔ ∃ baseLen expLen modLen,
    lengthAt input 0 32 = .ok baseLen ∧ lengthAt input 32 64 = .ok expLen ∧
      lengthAt input 64 96 = .ok modLen ∧
      (∃ gasCost, calculateGasCost baseLen expLen modLen = .ok gasCost) ∧
      output input baseLen expLen modLen = .ok (expected input) := by
  constructor
  · rintro ⟨gasCost, h⟩
    -- no cost exceeds the largest gas limit
    have heno : ∀ cost : U256, ¬ cost > U256.MAX := by
      intro cost
      have hmax : U256.MAX.toNat = 2 ^ 256 - 1 := BitVec.toNat_allOnes
      rw [gt_iff_lt, BitVec.lt_def]
      omega
    have hmax := h U256.MAX
    rw [if_neg (heno gasCost)] at hmax
    obtain ⟨baseLen, hbase, hmax⟩ := hmax.of_bind
    obtain ⟨expLen, hexp, hmax⟩ := hmax.of_bind
    obtain ⟨modLen, hmod, hmax⟩ := hmax.of_bind
    obtain ⟨cost, hcost, hmax⟩ := hmax.of_bind
    rw [if_neg (heno cost)] at hmax
    obtain ⟨bytes, hbs, hmax⟩ := hmax.of_bind
    cases hmax
    exact ⟨baseLen, expLen, modLen, hbase, hexp, hmod, ⟨_, hcost⟩, hbs⟩
  · rintro ⟨baseLen, expLen, modLen, hbase, hexp, hmod, ⟨gasCost, hcost⟩, hout⟩
    refine ⟨gasCost, fun gasLimit => ?_⟩
    rw [execute, hbase, hexp, hmod]
    change (calculateGasCost baseLen expLen modLen >>= _) = _
    rw [hcost, hout]
    change (if gasCost > gasLimit then _ else _) = _
    split_ifs <;> rfl

theorem length_of_correct (h : Correct input) : 96 ≤ input.length ∧ 0 < modLength input := by
  obtain ⟨baseLen, expLen, modLen, -, -, hmod, -, hout⟩ := correct_iff_output.mp h
  have hexp : (expected input).length = modLength input := length_toBigEndian ..
  by_cases hlen : 96 ≤ input.length
  · refine ⟨hlen, Nat.pos_of_ne_zero fun hzero => ?_⟩
    obtain ⟨rfl, -⟩ := (lengthAt_eq_ok rfl hlen).mp hmod
    rw [← modLength, hzero] at hout
    rw [output_of_modLen_eq_zero hout, hzero] at hexp
    cases hexp
  · rw [lengthAt_of_lt (Nat.lt_of_not_le hlen)] at hmod
    cases hmod
    rw [output_of_modLen_eq_zero hout] at hexp
    exact absurd hexp.symm (modLength_ne_one (Nat.lt_of_not_le hlen))

theorem output_eq_expected_iff (hsl : input.length ≤ isizeMax) (hpos : 0 < modLength input)
    (hsm : modLength input < 2 ^ 37) :
    output input (baseLength input) (expLength input) (modLength input) = .ok (expected input) ↔
      modStart input < 2 ^ 64 ∧ (present input (modStart input) (modLength input) = 0 ∨
        field input 96 (baseLength input) ^ field input (expStart input) (expLength input) %
          field input (modStart input) (modLength input) <
            present input (modStart input) (modLength input)) := by
  have hpow := power_eq_mul_iff (b := field input 96 (baseLength input))
    (e := field input (expStart input) (expLength input))
    (m := present input (modStart input) (modLength input))
    (q := 256 ^ (modLength input - (input.length - modStart input))) (Nat.pow_pos (by decide))
  rw [← field_eq_mul] at hpow
  rw [← hpow, ← powerModulo, ← powerModulo, output_eq_ok]
  change expected input = pad (toBytesBe (power _ (present input (expStart input) _)
    (present input (modStart input) _))) _ ∧ modStart input < 2 ^ 64 ∧
    (modStart input < input.length → 0 < modLength input →
      modStart input + modLength input < 2 ^ 64) ↔ _
  rw [power_present, pad_toBytesBe (ne_of_gt hpos) (powerModulo_lt present_lt), expected,
    toBigEndian_inj (powerModulo_lt field_lt) (powerModulo_lt present_lt)]
  unfold isizeMax at hsl
  constructor
  · rintro ⟨hpow, hst, -⟩
    exact ⟨hst, hpow.symm⟩
  · rintro ⟨hst, hpow⟩
    refine ⟨hpow.symm, hst, fun hlt _ => ?_⟩
    omega

/-- The result is right exactly if the input has all three lengths, the modulus is not announced as
empty, the lengths are small enough for the arithmetic on them, and the bytes of the modulus that
the input has are zero or above the power modulo these bytes followed by zeros. -/
theorem execute_correct_iff (input : List UInt8) (hsl : input.length ≤ isizeMax) :
    Correct input ↔ 96 ≤ input.length ∧ 0 < modLength input ∧
      max (baseLength input) (modLength input) + 31 < 2 ^ 37 ∧ modStart input < 2 ^ 64 ∧
      (present input (modStart input) (modLength input) = 0 ∨
        field input 96 (baseLength input) ^ field input (expStart input) (expLength input) %
          field input (modStart input) (modLength input) <
            present input (modStart input) (modLength input)) := by
  constructor
  · intro h
    obtain ⟨hlen, hpos⟩ := length_of_correct h
    obtain ⟨baseLen, expLen, modLen, hbase, hexp, hmod, hgas, hout⟩ := correct_iff_output.mp h
    obtain ⟨rfl, -⟩ := (lengthAt_eq_ok rfl (by omega)).mp hbase
    obtain ⟨rfl, hexpL⟩ := (lengthAt_eq_ok rfl (by omega)).mp hexp
    obtain ⟨rfl, -⟩ := (lengthAt_eq_ok rfl hlen).mp hmod
    have hsm : max (baseLength input) (modLength input) + 31 < 2 ^ 37 :=
      (calculateGasCost_returns_iff hexpL).mp hgas
    exact ⟨hlen, hpos, hsm, (output_eq_expected_iff hsl hpos (by omega)).mp hout⟩
  · rintro ⟨hlen, hpos, hsm, hst, hpow⟩
    have hexpL : expLength input < wordBound := lt_of_le_of_lt (Nat.le_add_left _ _) hst
    have hbd : max (baseLength input) (modLength input) < wordBound := by
      unfold wordBound
      omega
    refine correct_iff_output.mpr ⟨baseLength input, expLength input, modLength input, ?_⟩
    refine ⟨(lengthAt_eq_ok rfl (by omega)).mpr ⟨rfl, ?_⟩,
      (lengthAt_eq_ok rfl (by omega)).mpr ⟨rfl, hexpL⟩,
      (lengthAt_eq_ok rfl hlen).mpr ⟨rfl, ?_⟩,
      (calculateGasCost_returns_iff hexpL).mpr hsm,
      (output_eq_expected_iff hsl hpos (by omega)).mpr ⟨hst, hpow⟩⟩
    · exact lt_of_le_of_lt (le_max_left ..) hbd
    · exact lt_of_le_of_lt (le_max_right ..) hbd

def announced (baseLen expLen modLen : Nat) (operands : List UInt8) : List UInt8 :=
  toBigEndian 32 baseLen ++ toBigEndian 32 expLen ++ toBigEndian 32 modLen ++ operands

theorem execute_correct_small : Correct (announced 1 1 1 [2, 5, 7]) :=
  (execute_correct_iff _ (by decide)).mpr (by decide +kernel)

/-- An empty modulus gives one byte instead of none, the modulus `0x0500` is taken for 5 if the
input ends before its last byte, and a length of 2^64 panics. -/
theorem execute_incorrect :
    (execute [] 0 = .ok (.ok ([0], 0)) ∧ expected [] = []) ∧
      (execute (announced 1 1 2 [2, 5, 5]) 1000 = .ok (.ok ([0, 2], 2)) ∧
        expected (announced 1 1 2 [2, 5, 5]) = [0, 32]) ∧
      execute (announced (2 ^ 64) 0 0 []) 0 = .error .cast := by
  decide +kernel

end ModExp

end EthereumRust.Evm
