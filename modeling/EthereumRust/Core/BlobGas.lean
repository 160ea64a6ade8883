import EthereumRust.Consensus.Fees

/-!
# Blob base fees (`crates/core`: `eip7691.rs`)

The fee for a unit of blob gas grows with the excess blob gas, as the withdrawal fee does with the
excess requests.
-/

namespace EthereumRust.Core
open Rust ExpSeries

def oldTargetBlobGasPerBlock : UInt64 := 393216

def oldMaxBlobGasPerBlock : UInt64 := 786432

def targetBlobGasPerBlock : UInt64 := 786432

def maxBlobGasPerBlock : UInt64 := 1179648

def blobGasPerBlob : UInt64 := 131072

def minBlobBaseFee : UInt64 := 1

def blobBaseFeeUpdateFraction : UInt64 := 3338477

structure BlobGasConfig where
  targetBlobGasPerBlock : UInt64
  maxBlobGasPerBlock : UInt64
  blobGasPerBlob : UInt64
  minBlobBaseFee : UInt64
  blobBaseFeeUpdateFraction : UInt64
  deriving DecidableEq

namespace BlobGasConfig

def pre7691 : BlobGasConfig where
  targetBlobGasPerBlock := oldTargetBlobGasPerBlock
  maxBlobGasPerBlock := oldMaxBlobGasPerBlock
  blobGasPerBlob := Core.blobGasPerBlob
  minBlobBaseFee := Core.minBlobBaseFee
  blobBaseFeeUpdateFraction := Core.blobBaseFeeUpdateFraction

def post7691 : BlobGasConfig where
  targetBlobGasPerBlock := Core.targetBlobGasPerBlock
  maxBlobGasPerBlock := Core.maxBlobGasPerBlock
  blobGasPerBlob := Core.blobGasPerBlob
  minBlobBaseFee := Core.minBlobBaseFee
  blobBaseFeeUpdateFraction := Core.blobBaseFeeUpdateFraction

end BlobGasConfig

/-- The body is, line by line, that of the function in `eip7002.rs`. -/
def fakeExponential (factor numerator denominator : U256) : Checked U256 :=
  Consensus.fakeExponential factor numerator denominator

def calculateBlobBaseFee (excessBlobGas : UInt64) (config : BlobGasConfig) : Checked U256 :=
  fakeExponential (.ofU64 config.minBlobBaseFee) (.ofU64 excessBlobGas)
    (.ofU64 config.blobBaseFeeUpdateFraction)

/-- The fees are not below their minimum and do not fall when the excess grows, where they are
defined at all. -/
theorem fees_monotone :
    (∀ bf num num' den fee fee' : U256, 0 < den.toNat →
      num ≤ num' → fakeExponential bf num den = .ok fee →
      fakeExponential bf num' den = .ok fee' → bf ≤ fee ∧ fee ≤ fee') ∧
    (∀ (cfg : BlobGasConfig) (exc exc' : UInt64) (fee fee' : U256),
      0 < cfg.blobBaseFeeUpdateFraction → exc ≤ exc' →
      calculateBlobBaseFee exc cfg = .ok fee →
      calculateBlobBaseFee exc' cfg = .ok fee' →
      U256.ofU64 cfg.minBlobBaseFee ≤ fee ∧ fee ≤ fee') ∧
    (∀ (exc exc' : UInt64) (fee fee' : U256), exc ≤ exc' →
      Consensus.calculateWithdrawalRequestFee exc = .ok fee →
      Consensus.calculateWithdrawalRequestFee exc' = .ok fee' →
      U256.ofU64 Consensus.minWithdrawalRequestFee ≤ fee ∧ fee ≤ fee') := by
  have hword : ∀ exc exc' : UInt64, exc ≤ exc' →
      (U256.ofU64 exc).toNat ≤ (U256.ofU64 exc').toNat := by
    intro exc exc' hle
    rw [U256.toNat_ofU64, U256.toNat_ofU64]
    exact hle
  refine ⟨?_, ?_, ?_⟩
  · intro bf num num' den fee fee' hd hle h h'
    exact Consensus.fakeExponential_mono hd hle h h'
  · intro cfg exc exc' fee fee' hd hle h h'
    refine Consensus.fakeExponential_mono ?_ (hword _ _ hle) h h'
    rw [U256.toNat_ofU64]
    exact hd
  · intro exc exc' fee fee' hle h h'
    exact Consensus.fakeExponential_mono (by decide) (hword _ _ hle) h h'

theorem fees_monotone_from_empty :
    calculateBlobBaseFee 0 .post7691 = .ok 1 ∧ calculateBlobBaseFee 10000000 .post7691 = .ok 19 ∧
      U256.ofU64 minBlobBaseFee ≤ 1 ∧ (1 : U256) ≤ 19 := by
  have h : calculateBlobBaseFee 0 .post7691 = .ok 1 := by decide +kernel
  have h' : calculateBlobBaseFee 10000000 .post7691 = .ok 19 := by decide +kernel
  exact ⟨h, h', fees_monotone.2.1 .post7691 0 10000000 1 19 (by decide) (by decide) h h'⟩

/-- The fee is what the series gives in unbounded arithmetic. -/
def IsExact (config : BlobGasConfig) (excess : UInt64) : Prop :=
  ∃ fee, calculateBlobBaseFee excess config = .ok fee ∧
    ExpSeries.Evaluates config.minBlobBaseFee.toNat excess.toNat
      config.blobBaseFeeUpdateFraction.toNat fee.toNat

section
variable {exc : UInt64}

theorem toNat_ofU64_pos (h : 0 < x) : 0 < (U256.ofU64 x).toNat := by
  rw [U256.toNat_ofU64]
  exact h

theorem calculateBlobBaseFee_eq_ok (hd : 0 < cfg.blobBaseFeeUpdateFraction) :
    calculateBlobBaseFee exc cfg = .ok fee ↔
      Consensus.Fits cfg.minBlobBaseFee.toNat exc.toNat
          cfg.blobBaseFeeUpdateFraction.toNat ∧
        fee.toNat = sum cfg.minBlobBaseFee.toNat exc.toNat
          cfg.blobBaseFeeUpdateFraction.toNat 256 / cfg.blobBaseFeeUpdateFraction.toNat := by
  rw [calculateBlobBaseFee, fakeExponential, Consensus.fakeExponential_eq_ok (toNat_ofU64_pos hd)]
  simp only [U256.toNat_ofU64]

theorem calculateBlobBaseFee_returns_iff (hd : 0 < cfg.blobBaseFeeUpdateFraction) :
    (∃ fee, calculateBlobBaseFee exc cfg = .ok fee) ↔
      Consensus.Fits cfg.minBlobBaseFee.toNat exc.toNat
        cfg.blobBaseFeeUpdateFraction.toNat := by
  simp only [calculateBlobBaseFee, fakeExponential]
  rw [Consensus.fakeExponential_returns_iff (toNat_ofU64_pos hd)]
  simp only [U256.toNat_ofU64]

theorem isExact_iff (hd : 0 < cfg.blobBaseFeeUpdateFraction) :
    IsExact cfg exc ↔ (∃ fee, calculateBlobBaseFee exc cfg = .ok fee) ∧
      ∀ n, 256 ≤ n →
        sum cfg.minBlobBaseFee.toNat exc.toNat
            cfg.blobBaseFeeUpdateFraction.toNat n / cfg.blobBaseFeeUpdateFraction.toNat =
          sum cfg.minBlobBaseFee.toNat exc.toNat
            cfg.blobBaseFeeUpdateFraction.toNat 256 /
            cfg.blobBaseFeeUpdateFraction.toNat := by
  have hpos : 0 < cfg.blobBaseFeeUpdateFraction.toNat := hd
  rw [← evaluates_sum_iff hpos]
  constructor
  · rintro ⟨fee, hfee, heval⟩
    rw [((calculateBlobBaseFee_eq_ok hd).mp hfee).2] at heval
    exact ⟨⟨fee, hfee⟩, heval⟩
  · rintro ⟨⟨fee, hfee⟩, heval⟩
    rw [← ((calculateBlobBaseFee_eq_ok hd).mp hfee).2] at heval
    exact ⟨fee, hfee, heval⟩

end

theorem fits_iff : Consensus.Fits 1 exc 3338477 ↔ exc < 486854879 := by
  have hd : 0 < BlobGasConfig.post7691.blobBaseFeeUpdateFraction := by decide
  have hret : ∀ exc : UInt64,
      (∃ fee, calculateBlobBaseFee exc .post7691 = .ok fee) ↔
        Consensus.Fits 1 exc.toNat 3338477 := fun _ => calculateBlobBaseFee_returns_iff hd
  constructor
  · intro h
    by_contra hle
    have hfits := h.of_le (not_lt.mp hle)
    obtain ⟨fee, hfee⟩ := (hret 486854879).mpr hfits
    have hove : calculateBlobBaseFee 486854879 .post7691 = .error .arithmetic := by
      decide +kernel
    rw [hove] at hfee
    cases hfee
  · intro h
    have hok : (calculateBlobBaseFee 486854878 .post7691).isOk = true := by decide +kernel
    cases hfee : calculateBlobBaseFee 486854878 .post7691 with
    | error p =>
      rw [hfee] at hok
      cases hok
    | ok fee =>
      have hfits := (hret 486854878).mp ⟨fee, hfee⟩
      exact hfits.of_le (Nat.le_of_lt_succ h)

theorem sum_eq_of_le (h : exc ≤ 300967924) (hn : 256 ≤ n) :
    sum 1 exc 3338477 n = sum 1 exc 3338477 256 := by
  have hlast : term 1 300967924 3338477 256 = 0 := by decide +kernel
  have hzero : term 1 exc 3338477 256 = 0 := Nat.le_zero.mp (hlast ▸ term_le_term h)
  exact le_antisymm (sum_le_of_term_eq_zero hzero) (sum_mono hn)

theorem sum_div_lt_of_le (h : 318399546 ≤ exc) :
    sum 1 exc 3338477 256 / 3338477 < sum 1 exc 3338477 271 / 3338477 := by
  have htail : 3338477 ≤ ∑ i ∈ Finset.range 15, term 1 318399546 3338477 (256 + i) := by
    decide +kernel
  have hsum : sum 1 exc 3338477 256 + 3338477 ≤ sum 1 exc 3338477 271 :=
    calc sum 1 exc 3338477 256 + 3338477
        ≤ sum 1 exc 3338477 256 +
            ∑ i ∈ Finset.range 15, term 1 exc 3338477 (256 + i) :=
          Nat.add_le_add_left
            (htail.trans (Finset.sum_le_sum fun i _ => term_le_term h)) _
      _ = sum 1 exc 3338477 271 := (sum_add).symm
  omega

/-- What the configured fee is, for every excess. It panics from 486854879 on. It is the value of
the series exactly when the terms behind the 256th do not change the quotient, as is the case up to
300967924, and not the case from 318399546 on. -/
theorem calculateBlobBaseFee_isExact_iff (cfg : BlobGasConfig)
    (hmin : cfg.minBlobBaseFee = minBlobBaseFee)
    (hfra : cfg.blobBaseFeeUpdateFraction = blobBaseFeeUpdateFraction) (exc : UInt64) :
    ((∃ fee, calculateBlobBaseFee exc cfg = .ok fee) ↔ exc.toNat < 486854879) ∧
      (IsExact cfg exc ↔ ∀ n, 256 ≤ n →
        sum 1 exc.toNat 3338477 n / 3338477 =
          sum 1 exc.toNat 3338477 256 / 3338477) ∧
      (exc.toNat ≤ 300967924 → IsExact cfg exc) ∧
      (318399546 ≤ exc.toNat → ¬ IsExact cfg exc) := by
  have hd : 0 < cfg.blobBaseFeeUpdateFraction := by
    rw [hfra]
    decide
  have hret : (∃ fee, calculateBlobBaseFee exc cfg = .ok fee) ↔
      exc.toNat < 486854879 := by
    rw [calculateBlobBaseFee_returns_iff hd, hmin, hfra]
    exact fits_iff
  have hexa : IsExact cfg exc ↔ exc.toNat < 486854879 ∧ ∀ n, 256 ≤ n →
      sum 1 exc.toNat 3338477 n / 3338477 =
        sum 1 exc.toNat 3338477 256 / 3338477 := by
    rw [isExact_iff hd, hret, hmin, hfra]
    exact Iff.rfl
  have hwro : 318399546 ≤ exc.toNat → ¬ ∀ n, 256 ≤ n →
      sum 1 exc.toNat 3338477 n / 3338477 =
        sum 1 exc.toNat 3338477 256 / 3338477 :=
    fun hle h => (sum_div_lt_of_le hle).ne' (h 271 (by decide))
  refine ⟨hret, ?_, ?_, ?_⟩
  · rw [hexa, and_iff_right_iff_imp]
    intro h
    by_contra hge
    exact hwro (by omega) h
  · intro hle
    refine hexa.mpr ⟨by omega, fun n hn => ?_⟩
    rw [sum_eq_of_le hle hn]
  · intro hle h
    exact hwro hle (hexa.mp h).2

theorem calculateBlobBaseFee_isExact_small : IsExact .post7691 10000000 :=
  (calculateBlobBaseFee_isExact_iff .post7691 rfl rfl 10000000).2.2.1 (by decide)

/-- The greatest excess overflows, and 318399546 gives a fee that is too low by 1. -/
theorem calculateBlobBaseFee_fails :
    calculateBlobBaseFee u64Max .post7691 = .error .arithmetic ∧
      calculateBlobBaseFee 318399546 .post7691 =
        .ok 262926774326332549573821687172256101669341 ∧
      ExpSeries.Evaluates 1 318399546 3338477 262926774326332549573821687172256101669342 := by
  refine ⟨by decide +kernel, by decide +kernel, evaluates_iff.mpr ⟨271, ?_, ?_⟩⟩
  · decide +kernel
  · decide +kernel

end EthereumRust.Core
