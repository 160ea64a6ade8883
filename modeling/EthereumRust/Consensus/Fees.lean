import EthereumRust.Consensus.Eip7002
import EthereumRust.Lib.ExpSeries

/-!
# What `fake_exponential` returns

The fees grow with an excess as an exponential, which the loop of `fake_exponential` sums up on
words and with at most 256 terms. After `k` turns its variables hold the sum of `k` terms and the
next term.
-/

namespace EthereumRust.Consensus
open Rust ExpSeries

section
variable {num : U256}

structure FitsAt (factor numerator denominator i : Nat) : Prop where
  sum : ExpSeries.sum factor numerator denominator (i + 1) < 2 ^ 256
  product : ExpSeries.term factor numerator denominator i * numerator < 2 ^ 256
  divisor : denominator * (i + 1) < 2 ^ 256

def Fits (factor numerator denominator : Nat) : Prop :=
  factor * denominator < 2 ^ 256 ∧
    ∀ i < 256, 0 < ExpSeries.term factor numerator denominator i →
      FitsAt factor numerator denominator i

theorem Fits.sum_lt (h : Fits f n d) (hk : k ≤ 256) : sum f n d k < 2 ^ 256 := by
  induction k with
  | zero => exact Nat.two_pow_pos 256
  | succ k ih =>
    rcases Nat.eq_zero_or_pos (term f n d k) with h0 | hpos
    · rw [sum_succ, h0]
      exact ih (Nat.le_of_succ_le hk)
    · exact (h.2 k hk hpos).sum

def FitsFrom (factor numerator denominator k : Nat) : Prop :=
  ∀ i, k ≤ i → i < 256 → 0 < ExpSeries.term factor numerator denominator i →
    FitsAt factor numerator denominator i

theorem fitsFrom_of_term_eq_zero (h : term f n d k = 0) : FitsFrom f n d k := by
  intro i hle _ hpos
  rw [term_eq_zero_of_le h hle] at hpos
  exact absurd hpos (lt_irrefl 0)

theorem fitsFrom_of_le (h : 256 ≤ k) : FitsFrom f n d k := by
  intro i hle hlt
  omega

theorem fitsFrom_succ_iff (hk : k < 256) (hpos : 0 < term f n d k) :
    FitsFrom f n d k ↔ FitsAt f n d k ∧ FitsFrom f n d (k + 1) := by
  constructor
  · intro h
    exact ⟨h k (le_refl k) hk hpos, fun i hle => h i (Nat.le_of_succ_le hle)⟩
  · rintro ⟨hfits, hlat⟩ i hle hlt hi
    rcases eq_or_lt_of_le hle with rfl | hgt
    · exact hfits
    · exact hlat i hgt hlt hi

structure AfterTurns (factor numerator denominator k : Nat) (output accum i : U256) : Prop where
  output : output.toNat = ExpSeries.sum factor numerator denominator k
  accum : accum.toNat = ExpSeries.term factor numerator denominator k
  counter : i.toNat = k + 1

theorem FitsAt.exists_afterTurns (h : FitsAt f n d k) (hk : k < 256) :
    ∃ output accum i : U256, AfterTurns f n d (k + 1) output accum i := by
  have hterm : term f n d (k + 1) < 2 ^ 256 := lt_of_le_of_lt (Nat.div_le_self _ _) h.product
  have hcnt : k + 2 < 2 ^ 256 := lt_of_le_of_lt (show k + 2 ≤ 257 by omega) (by decide)
  exact ⟨_, _, _, U256.toNat_ofNat h.sum, U256.toNat_ofNat hterm, U256.toNat_ofNat hcnt⟩

theorem turn_eq_ok {f : Nat} (hd : 0 < den.toNat) {k turns : Nat}
    (hst : AfterTurns f num.toNat den.toNat k output accum i)
    (hk : k < 256) (hpos : 0 < term f num.toNat den.toNat k) :
    fakeExponentialLoop num den (turns + 1) output accum i = .ok res ↔
      FitsAt f num.toNat den.toNat k ∧
        ∃ output' accum' i' : U256,
          AfterTurns f num.toNat den.toNat (k + 1) output' accum' i' ∧
          (if k + 1 = 256 then output' = res
            else
              fakeExponentialLoop num den turns output' accum' i' = .ok res) := by
  have hgt : accum > 0 := by
    rw [gt_iff_lt, BitVec.lt_def, hst.accum]
    exact hpos
  have hlast : ∀ i' : U256, i'.toNat = k + 2 → (i' > 256 ↔ k + 1 = 256) := by
    intro i' hi'
    rw [gt_iff_lt, BitVec.lt_def, hi']
    change 256 < k + 2 ↔ _
    omega
  have hone : (1 : U256).toNat = 1 := rfl
  rw [fakeExponentialLoop, if_pos hgt]
  simp only [Except.bind_eq_ok, U256.add_eq_ok, U256.mul_eq_ok, U256.div_eq_ok, hst.counter,
    hst.accum, hst.output]
  constructor
  · rintro ⟨output', hoo, product, hp, divisor, hq, accum', ⟨-, haa⟩, i', hii, h⟩
    rw [← sum_succ] at hoo
    rw [hp, hq] at haa
    refine ⟨⟨hoo ▸ output'.isLt, hp ▸ product.isLt, hq ▸ divisor.isLt⟩, output', accum', i',
      ⟨hoo, haa, hii⟩, ?_⟩
    by_cases h256 : k + 1 = 256
    · rw [if_pos ((hlast i' hii).mpr h256)] at h
      rw [if_pos h256]
      exact Except.ok.inj h
    · rw [if_neg (mt (hlast i' hii).mp h256)] at h
      rwa [if_neg h256]
  · rintro ⟨⟨hsum, hpro, hdiv⟩, output', accum', i', ⟨hoo, haa, hii⟩, h⟩
    have hne : den.toNat * (k + 1) ≠ 0 := (Nat.mul_pos hd (Nat.succ_pos k)).ne'
    refine ⟨output', hoo.trans sum_succ, _, U256.toNat_ofNat hpro,
      _, U256.toNat_ofNat hdiv, accum', ⟨?_, ?_⟩, i', hii, ?_⟩
    · rwa [U256.toNat_ofNat hdiv]
    · rw [U256.toNat_ofNat hpro, U256.toNat_ofNat hdiv, haa, term]
    · by_cases h256 : k + 1 = 256
      · rw [if_pos h256] at h
        rw [if_pos ((hlast i' hii).mpr h256), h]
        rfl
      · rw [if_neg h256] at h
        rwa [if_neg (mt (hlast i' hii).mp h256)]

/-- The loop from turn `k` on, with the terms so far summed up. -/
theorem fakeExponentialLoop_eq_ok (hd : 0 < den.toNat) (hk : k + turns = 256)
    (hst : AfterTurns f num.toNat den.toNat k output accum i) :
    fakeExponentialLoop num den turns output accum i = .ok res ↔
      FitsFrom f num.toNat den.toNat k ∧
        res.toNat = sum f num.toNat den.toNat 256 := by
  induction turns generalizing k output accum i with
  | zero =>
    obtain rfl : k = 256 := hk
    rw [fakeExponentialLoop, Except.ok.injEq, ← hst.output, BitVec.toNat_inj, eq_comm]
    exact (and_iff_right (fitsFrom_of_le (le_refl 256))).symm
  | succ turns ih =>
    rcases Nat.eq_zero_or_pos (term f num.toNat den.toNat k) with h0 | hpos
    · -- the loop is left here, and the rem terms are zero as well
      have hsum : sum f num.toNat den.toNat 256 = output.toNat := by
        rw [hst.output]
        exact le_antisymm (sum_le_of_term_eq_zero h0)
          (sum_mono (by omega))
      have hacc : ¬ accum > 0 := by
        rw [gt_iff_lt, BitVec.lt_def, hst.accum, h0]
        exact lt_irrefl 0
      rw [fakeExponentialLoop, if_neg hacc, Except.ok.injEq, hsum, BitVec.toNat_inj, eq_comm]
      exact (and_iff_right (fitsFrom_of_term_eq_zero h0)).symm
    · have hlt : k < 256 := by omega
      rw [turn_eq_ok hd hst hlt hpos, fitsFrom_succ_iff hlt hpos, and_assoc]
      refine and_congr_right fun hfits => ?_
      constructor
      · rintro ⟨output', accum', i', hnext, h⟩
        split at h
        · rename_i h256
          refine ⟨fitsFrom_of_le h256.ge, ?_⟩
          rw [← h, hnext.output, h256]
        · exact (ih (by omega) hnext).mp h
      · rintro ⟨hlat, hres⟩
        obtain ⟨output', accum', i', hnext⟩ := hfits.exists_afterTurns hlt
        refine ⟨output', accum', i', hnext, ?_⟩
        split
        · rename_i h256
          apply BitVec.eq_of_toNat_eq
          rw [hnext.output, hres, h256]
        · exact (ih (by omega) hnext).mpr ⟨hlat, hres⟩

theorem fakeExponential_eq_ok (hd : 0 < den.toNat) {res : U256} :
    fakeExponential bf num den = .ok res ↔
      Fits bf.toNat num.toNat den.toNat ∧ res.toNat =
        sum bf.toNat num.toNat den.toNat 256 / den.toNat := by
  have hloop : ∀ accum output : U256, accum.toNat = bf.toNat * den.toNat →
      (fakeExponentialLoop num den 256 0 accum 1 = .ok output ↔ _) :=
    fun accum output hacc =>
      fakeExponentialLoop_eq_ok (f := bf.toNat) hd (k := 0) rfl ⟨rfl, hacc, rfl⟩
  simp only [fakeExponential, Except.bind_eq_ok, U256.mul_eq_ok, U256.div_eq_ok]
  constructor
  · rintro ⟨accum, hacc, output, h, -, hres⟩
    obtain ⟨hfits, hout⟩ := (hloop accum output hacc).mp h
    rw [hout] at hres
    exact ⟨⟨hacc ▸ accum.isLt, fun i => hfits i (Nat.zero_le i)⟩, hres⟩
  · rintro ⟨⟨hst, hfits⟩, hres⟩
    have hsum := Fits.sum_lt ⟨hst, hfits⟩ (le_refl 256)
    have hout := U256.toNat_ofNat hsum
    have hrun := (hloop _ _ (U256.toNat_ofNat hst)).mpr ⟨fun i _ => hfits i, hout⟩
    refine ⟨_, U256.toNat_ofNat hst, _, hrun, hd.ne', ?_⟩
    rw [hres, hout]

theorem fakeExponential_returns_iff (hd : 0 < den.toNat) :
    (∃ res, fakeExponential bf num den = .ok res) ↔ Fits bf.toNat num.toNat den.toNat := by
  constructor
  · rintro ⟨res, h⟩
    exact ((fakeExponential_eq_ok hd).mp h).1
  · intro h
    have hlt := lt_of_le_of_lt (Nat.div_le_self _ den.toNat)
      (h.sum_lt (le_refl 256))
    exact ⟨_, (fakeExponential_eq_ok hd).mpr ⟨h, U256.toNat_ofNat hlt⟩⟩

theorem fakeExponential_mono (hd : 0 < den.toNat) (hle : num.toNat ≤ num'.toNat)
    (h : fakeExponential bf num den = .ok fee) (h' : fakeExponential bf num' den = .ok fee') :
    bf ≤ fee ∧ fee ≤ fee' := by
  have hfee := ((fakeExponential_eq_ok hd).mp h).2
  have hfee' := ((fakeExponential_eq_ok hd).mp h').2
  rw [BitVec.le_def, BitVec.le_def, hfee, hfee']
  exact ⟨le_sum_div hd (by decide), Nat.div_le_div_right (sum_le_sum hle)⟩

end

theorem Fits.of_le (h : Fits f n' d) (hle : n ≤ n') : Fits f n d := by
  refine ⟨h.1, fun i hi hpos => ?_⟩
  have hterm : term f n d i ≤ term f n' d i := term_le_term hle
  have hfits := h.2 i hi (lt_of_lt_of_le hpos hterm)
  exact ⟨lt_of_le_of_lt (sum_le_sum hle) hfits.sum,
    lt_of_le_of_lt (Nat.mul_le_mul hterm hle) hfits.product, hfits.divisor⟩

end EthereumRust.Consensus
