import EthereumRust.Evm.Execution

/-!
# The gas meter and the cost table (`gas.rs`)

`consume` adds with saturation and compares the sum with the limit, so a charge that overflows
`u64` still passes when the limit is `u64::MAX`. The dynamic costs cast their size argument to
`u64` and round it up to words first; both steps can panic.
-/

namespace EthereumRust.Evm
open Rust

structure Gas where
  limit : UInt64
  used : UInt64

namespace Gas

def new (limit : UInt64) : Gas := ⟨limit, 0⟩

def consume (gas : Gas) (amount : UInt64) : Except EvmError Gas :=
  let newUsed := saturatingAdd gas.used amount
  if newUsed > gas.limit then .error .OutOfGas else .ok { gas with used := newUsed }

def remaining (gas : Gas) : UInt64 := saturatingSub gas.limit gas.used

def Affords (gas : Gas) (amount : UInt64) : Prop := saturatingAdd gas.used amount ≤ gas.limit

instance (gas : Gas) (amount : UInt64) : Decidable (gas.Affords amount) :=
  inferInstanceAs (Decidable (_ ≤ _))

def spend (gas : Gas) (amount : UInt64) : Gas := { gas with used := saturatingAdd gas.used amount }

theorem consume_eq (gas : Gas) :
    gas.consume amt = if gas.Affords amt then .ok (gas.spend amt) else .error .OutOfGas := by
  by_cases h : gas.Affords amt
  · rw [if_pos h]
    exact if_neg (UInt64.not_lt.mpr h)
  · rw [if_neg h]
    exact if_pos (UInt64.not_le.mp h)

structure Spent (gas : Gas) (amount : Nat) (gas' : Gas) : Prop where
  limit : gas'.limit = gas.limit
  used : gas'.used.toNat = min (gas.used.toNat + amount) (wordBound - 1)
  le_limit : gas'.used ≤ gas'.limit

structure Grows (gas gas' : Gas) : Prop where
  limit : gas'.limit = gas.limit
  used_le : gas.used ≤ gas'.used
  le_limit : gas.used ≤ gas.limit → gas'.used ≤ gas'.limit

theorem Affords.spent {gas : Gas} (h : gas.Affords amt) :
    gas.Spent amt.toNat (gas.spend amt) where
  limit := rfl
  used := toNat_saturatingAdd ..
  le_limit := h

theorem Spent.trans {g₁ g₂ g₃ : Gas} (h₁ : g₁.Spent m g₂) (h₂ : g₂.Spent n g₃) :
    g₁.Spent (m + n) g₃ where
  limit := h₂.limit.trans h₁.limit
  used := by
    rw [h₂.used, h₁.used]
    omega
  le_limit := h₂.le_limit

theorem Grows.refl (gas : Gas) : gas.Grows gas := ⟨rfl, UInt64.le_refl _, id⟩

theorem Spent.grows {gas gas' : Gas} (h : gas.Spent amt gas') : gas.Grows gas' where
  limit := h.limit
  used_le := by
    have := toNat_lt_wordBound gas.used
    rw [UInt64.le_iff_toNat_le, h.used]
    omega
  le_limit _ := h.le_limit

theorem Spent.used_eq {gas gas' : Gas} (h : gas.Spent amt gas')
    (hlim : gas.limit ≠ u64Max) : gas'.used.toNat = gas.used.toNat + amt := by
  have hle : gas'.used.toNat ≤ gas.limit.toNat := by
    have := UInt64.le_iff_toNat_le.mp h.le_limit
    rwa [h.limit] at this
  have hne : gas.limit.toNat ≠ wordBound - 1 := fun he => hlim (UInt64.toNat_inj.mp he)
  have hlt := toNat_lt_wordBound gas.limit
  have hused := h.used
  omega

end Gas

namespace GasCost

def BASE : UInt64 := 2
def VERYLOW : UInt64 := 3
def LOW : UInt64 := 5
def MID : UInt64 := 8
def HIGH : UInt64 := 10
def BALANCE : UInt64 := 2600
def SLOAD : UInt64 := 2100
def JUMPDEST : UInt64 := 1
def SSET : UInt64 := 20000
def EXP : UInt64 := 10
def EXPBYTE : UInt64 := 50
def MEMORY : UInt64 := 3
def LOG : UInt64 := 375
def LOGDATA : UInt64 := 8
def LOGTOPIC : UInt64 := 375
def KECCAK256 : UInt64 := 30
def KECCAK256WORD : UInt64 := 6
def COPY : UInt64 := 3
def BLOCKHASH : UInt64 := 20
def EXTCODESIZE : UInt64 := 2600
def EXTCODECOPY : UInt64 := 2600
def EXTCODEHASH : UInt64 := 2600
def CHAINID : UInt64 := 2
def SELFBALANCE : UInt64 := 5
def BASEFEE : UInt64 := 2

def wordSize (size : U256) : Checked UInt64 := do
  let sizeU64 ← size.asU64
  let rounded ← addU64 sizeU64 31
  return rounded / 32

def memoryGasCost (size : U256) : Checked UInt64 := do
  let memorySizeWord ← wordSize size
  let linearCost := saturatingMul memorySizeWord MEMORY
  let quadraticCost := saturatingPow memorySizeWord 2 / 512
  return saturatingAdd linearCost quadraticCost

def expGasCost (exponent : U256) : UInt64 :=
  let byteSize := (exponent.bits + 7) / 8
  saturatingAdd EXP (saturatingMul EXPBYTE (.ofNat byteSize))

def keccak256GasCost (dataSize : U256) : Checked UInt64 := do
  let wordSize ← wordSize dataSize
  return saturatingAdd KECCAK256 (saturatingMul KECCAK256WORD wordSize)

def copyGasCost (dataSize : U256) : Checked UInt64 := do
  let wordSize ← wordSize dataSize
  return saturatingMul COPY wordSize

def logGasCost (topicCount : Nat) (dataSize : U256) : Checked UInt64 := do
  let sizeU64 ← dataSize.asU64
  return saturatingAdd (saturatingAdd LOG (saturatingMul LOGTOPIC (.ofNat topicCount)))
    (saturatingMul LOGDATA sizeU64)

def keccakCharge (size : U256) : UInt64 :=
  saturatingAdd KECCAK256 (saturatingMul KECCAK256WORD (.ofNat ((size.toNat + 31) / 32)))

def copyCharge (size : U256) : UInt64 := saturatingMul COPY (.ofNat ((size.toNat + 31) / 32))

def logCharge (topicCount : Nat) (size : U256) : UInt64 :=
  saturatingAdd (saturatingAdd LOG (saturatingMul LOGTOPIC (.ofNat topicCount)))
    (saturatingMul LOGDATA (.ofNat size.toNat))

theorem wordSize_of_lt (h : size.toNat + 31 < wordBound) :
    wordSize size = .ok (.ofNat ((size.toNat + 31) / 32)) := by
  have hsize : size.toNat < wordBound := by omega
  have hnat := toNat_ofNat_of_lt hsize
  have hsum : (UInt64.ofNat size.toNat).toNat + (31 : UInt64).toNat < wordBound := by
    rw [hnat]
    exact h
  have hdiv : (UInt64.ofNat size.toNat + 31) / 32 = UInt64.ofNat ((size.toNat + 31) / 32) := by
    apply UInt64.toNat_inj.mp
    rw [UInt64.toNat_div, toNat_add_of_lt hsum, hnat, toNat_ofNat_of_lt (by omega)]
    rfl
  rw [wordSize, U256.asU64_of_lt hsize]
  change (addU64 _ _ >>= _) = _
  rw [addU64_of_lt hsum, ← hdiv]
  rfl

theorem wordSize_of_le (h : wordBound ≤ size.toNat + 31) : ∃ p, wordSize size = .error p := by
  by_cases hsize : size.toNat < wordBound
  · refine ⟨.arithmetic, ?_⟩
    have hsum : ¬(UInt64.ofNat size.toNat).toNat + (31 : UInt64).toNat < wordBound := by
      rw [toNat_ofNat_of_lt hsize]
      exact not_lt.mpr h
    rw [wordSize, U256.asU64_of_lt hsize]
    change (addU64 _ _ >>= _) = _
    rw [addU64, if_neg hsum]
    rfl
  · refine ⟨.cast, ?_⟩
    rw [wordSize, U256.asU64_of_le (Nat.le_of_not_lt hsize)]
    rfl

def memoryCharge (size : Nat) : Nat :=
  3 * ((size + 31) / 32) + min (((size + 31) / 32) ^ 2) (wordBound - 1) / 512

theorem memoryGasCost_of_lt (h : size.toNat + 31 < wordBound) :
    ∃ cost, memoryGasCost size = .ok cost ∧ cost.toNat = memoryCharge size.toNat := by
  refine ⟨_, by rw [memoryGasCost, wordSize_of_lt h]; rfl, ?_⟩
  have hwor : (UInt64.ofNat ((size.toNat + 31) / 32)).toNat = (size.toNat + 31) / 32 :=
    toNat_ofNat_of_lt (by omega)
  have hmem : MEMORY.toNat = 3 := rfl
  have hdiv : (512 : UInt64).toNat = 512 := rfl
  rw [toNat_saturatingAdd, toNat_saturatingMul, UInt64.toNat_div, toNat_saturatingPow, hwor,
    hmem, hdiv, memoryCharge]
  omega

theorem memoryGasCost_of_le (h : wordBound ≤ size.toNat + 31) :
    ∃ p, memoryGasCost size = .error p := by
  obtain ⟨p, hp⟩ := wordSize_of_le h
  exact ⟨p, by rw [memoryGasCost, hp]; rfl⟩

theorem memoryCharge_mono (h : m ≤ n) : memoryCharge m ≤ memoryCharge n := by
  have hwor : (m + 31) / 32 ≤ (n + 31) / 32 := Nat.div_le_div_right (by omega)
  have hsqu : ((m + 31) / 32) ^ 2 ≤ ((n + 31) / 32) ^ 2 := Nat.pow_le_pow_left hwor 2
  unfold memoryCharge
  omega

theorem three_mul_le_memoryCharge (size : Nat) : 3 * size ≤ 32 * memoryCharge size := by
  unfold memoryCharge
  omega

theorem keccak256GasCost_of_lt (h : size.toNat + 31 < wordBound) :
    keccak256GasCost size = .ok (keccakCharge size) := by
  rw [keccak256GasCost, wordSize_of_lt h]
  rfl

theorem keccak256GasCost_of_le (h : wordBound ≤ size.toNat + 31) :
    ∃ p, keccak256GasCost size = .error p := by
  obtain ⟨p, hp⟩ := wordSize_of_le h
  exact ⟨p, by rw [keccak256GasCost, hp]; rfl⟩

theorem copyGasCost_of_lt (h : size.toNat + 31 < wordBound) :
    copyGasCost size = .ok (copyCharge size) := by
  rw [copyGasCost, wordSize_of_lt h]
  rfl

theorem copyGasCost_of_le {size : U256} (h : wordBound ≤ size.toNat + 31) :
    ∃ p, copyGasCost size = .error p := by
  obtain ⟨p, hp⟩ := wordSize_of_le h
  exact ⟨p, by rw [copyGasCost, hp]; rfl⟩

theorem logGasCost_of_lt (h : size.toNat < wordBound) :
    logGasCost topicCount size = .ok (logCharge topicCount size) := by
  rw [logGasCost, U256.asU64_of_lt h]
  rfl

theorem logGasCost_of_le (h : wordBound ≤ size.toNat) :
    logGasCost topicCount size = .error .cast := by
  rw [logGasCost, U256.asU64_of_le h]
  rfl

end GasCost

end EthereumRust.Evm
