import EthereumRust.Types

/-!
# Word arithmetic of the interpreter

The private helpers of `interpreter.rs` that compute on words alone, and the expressions its
arithmetic arms push. Operands are named as in the source: `b` is popped before `a`.
-/

namespace EthereumRust.Evm
open Rust

def isNegative (value : U256) : Bool := value.bit 255

def twosComplement (value : U256) : U256 := ~~~value + 1

def signedDiv (a b : U256) : U256 :=
  if b.isZero then 0
  else
    let aNegative := isNegative a
    let bNegative := isNegative b
    let aAbs := if aNegative then twosComplement a else a
    let bAbs := if bNegative then twosComplement b else b
    let result := aAbs / bAbs
    if aNegative != bNegative then twosComplement result else result

def signedMod (a b : U256) : U256 :=
  if b.isZero then 0
  else
    let aNegative := isNegative a
    let aAbs := if aNegative then twosComplement a else a
    let bAbs := if isNegative b then twosComplement b else b
    let result := aAbs % bAbs
    if aNegative && !result.isZero then twosComplement result else result

/-- For `ext = 31` the mask is `(1 << 256) - 1`, and the subtraction is `0 - 1`. -/
def signExtend (ext x : U256) : Checked U256 :=
  if ext ≥ 32 then return x
  else do
    let ext ← ext.asUsize
    let bitIndex := ext * 8 + 7
    let bit := x.bit bitIndex
    let mask ← U256.sub ((1 : U256) <<< (bitIndex + 1)) 1
    return if bit then x ||| ~~~mask else x &&& mask

def arithmeticShr (value shift : U256) : U256 :=
  if shift ≥ 256 then if isNegative value then U256.MAX else 0
  else
    -- `as_usize` does not panic below 256
    let shift := shift.toNat
    if isNegative value then
      let shifted := value >>> shift
      let mask := U256.MAX <<< (256 - shift)
      shifted ||| mask
    else value >>> shift

def boolWord (c : Bool) : U256 := if c then 1 else 0

def addmod (a b n : U256) : U256 :=
  if n.isZero then 0 else .ofNat 256 ((a.toNat + b.toNat) % n.toNat)

def mulmod (a b n : U256) : U256 :=
  if n.isZero then 0 else .ofNat 256 (a.toNat * b.toNat % n.toNat)

def slt (a b : U256) : U256 :=
  if isNegative a == isNegative b then boolWord (a < b)
  else if isNegative a then 1 else 0

def sgt (a b : U256) : U256 :=
  if isNegative a == isNegative b then boolWord (a > b)
  else if isNegative b then 1 else 0

def byteOf (x i : U256) : U256 :=
  if i < 32 then .ofNat 256 (x.byte (31 - i.toNat)).toNat else 0

def shl (value shift : U256) : U256 := if shift ≥ 256 then 0 else value <<< shift.toNat

def shr (value shift : U256) : U256 := if shift ≥ 256 then 0 else value >>> shift.toNat

theorem signExtend_panics_iff (ext x : U256) :
    (∃ p, signExtend ext x = .error p) ↔ ext.toNat = 31 := by
  unfold signExtend
  by_cases hext : ext ≥ 32
  · have h32 : 32 ≤ ext.toNat := hext
    rw [if_pos hext]
    exact iff_of_false not_panics_ok (by omega)
  · have h32 : ext.toNat < 32 := by
      have := BitVec.not_le.mp hext
      exact this
    have hcast : ext.asUsize = .ok ext.toNat := U256.asUsize_of_lt (lt_trans h32 (by decide))
    rw [if_neg hext, hcast]
    change (∃ p, (U256.sub ((1 : U256) <<< (ext.toNat * 8 + 7 + 1)) 1 >>= _) = .error p) ↔ _
    by_cases h31 : ext.toNat = 31
    · rw [h31]
      refine ⟨fun _ => rfl, fun _ => ⟨.arithmetic, ?_⟩⟩
      rfl
    · -- below 31 the shifted bit is still inside the word, so the mask exists
      have hle : (1 : U256) ≤ (1 : U256) <<< (ext.toNat * 8 + 7 + 1) := by
        rw [BitVec.le_def]
        have hlt : 1 <<< (ext.toNat * 8 + 7 + 1) < 2 ^ 256 := by
          rw [Nat.one_shiftLeft]
          exact Nat.pow_lt_pow_right (by decide) (by omega)
        change 1 ≤ 1 <<< (ext.toNat * 8 + 7 + 1) % 2 ^ 256
        rw [Nat.mod_eq_of_lt hlt, Nat.one_shiftLeft]
        exact Nat.one_le_two_pow
      rw [U256.sub, if_pos hle]
      exact iff_of_false not_panics_ok h31

end EthereumRust.Evm
