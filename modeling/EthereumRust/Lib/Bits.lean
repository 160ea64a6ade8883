import Mathlib.Data.Nat.Bitwise

/-!
# Byte strings as sets of bits

Bit `k` of a byte string is bit `k % 8` of its byte `k / 8`, counted from the least significant one.
-/

namespace Bits

def mask (k : Nat) : UInt8 := 1 <<< UInt8.ofNat (k % 8)

def testBit (bytes : List UInt8) (k : Nat) : Bool :=
  match bytes[k / 8]? with
  | some byte => byte &&& mask k != 0
  | none => false

/-- A string without byte `k / 8` is left as it is. -/
def setBit (bytes : List UInt8) (k : Nat) : List UInt8 := bytes.modify (k / 8) (· ||| mask k)

def setBits (bytes : List UInt8) (ks : List Nat) : List UInt8 := ks.foldl setBit bytes

theorem toNat_mask : (mask k).toNat = 2 ^ (k % 8) := by
  have h : ∀ i : Fin 8, ((1 : UInt8) <<< UInt8.ofNat i).toNat = 2 ^ (i : Nat) := by decide
  exact h ⟨k % 8, Nat.mod_lt k (by decide)⟩

theorem and_mask_ne_zero : (byte &&& mask k != 0) = byte.toNat.testBit (k % 8) := by
  have h : (byte &&& mask k).toNat = (byte.toNat.testBit (k % 8)).toNat * 2 ^ (k % 8) := by
    rw [UInt8.toNat_and, toNat_mask, Nat.and_two_pow]
  have hpow : 0 < 2 ^ (k % 8) := Nat.two_pow_pos _
  cases hbit : byte.toNat.testBit (k % 8) with
  | false =>
    rw [hbit, Bool.toNat_false, zero_mul] at h
    have hzero : byte &&& mask k = 0 := UInt8.toNat_inj.mp h
    rw [hzero, bne_self_eq_false]
  | true =>
    rw [hbit, Bool.toNat_true, one_mul] at h
    rw [bne_iff_ne]
    intro hzero
    rw [hzero] at h
    exact hpow.ne h

section
variable {k : Nat}

theorem testBit_eq : testBit bytes k = (bytes[k / 8]?.map UInt8.toNat).any (·.testBit (k % 8)) := by
  unfold testBit
  cases bytes[k / 8]? with
  | none => rfl
  | some byte => exact and_mask_ne_zero

@[simp] theorem length_setBit : (setBit bytes k).length = bytes.length := List.length_modify ..

@[simp] theorem length_setBits : (setBits bytes ks).length = bytes.length := by
  induction ks generalizing bytes with
  | nil => rfl
  | cons k ks ih => exact ih.trans length_setBit

theorem testBit_setBit :
    testBit (setBit bytes k) j = true ↔ testBit bytes j = true ∨ j = k ∧ j / 8 < bytes.length := by
  rw [testBit_eq, testBit_eq, setBit, List.getElem?_modify]
  cases hbyte : bytes[j / 8]? with
  | none =>
    have hlen : bytes.length ≤ j / 8 := List.getElem?_eq_none_iff.mp hbyte
    simp [hlen]
  | some byte =>
    obtain ⟨hlen, -⟩ := List.getElem?_eq_some_iff.mp hbyte
    by_cases hdiv : k / 8 = j / 8
    · have hmod : k % 8 = j % 8 ↔ j = k := by omega
      simp [hdiv, hlen, UInt8.toNat_or, toNat_mask, Nat.testBit_or, Nat.testBit_two_pow, hmod]
    · have hne : j ≠ k := fun h => hdiv (h ▸ rfl)
      simp [hdiv, hne]

theorem testBit_setBits :
    testBit (setBits bytes ks) j = true ↔
      testBit bytes j = true ∨ j ∈ ks ∧ j / 8 < bytes.length := by
  induction ks generalizing bytes with
  | nil => simp [setBits]
  | cons k ks ih =>
    rw [setBits, List.foldl_cons, ← setBits, ih, testBit_setBit, length_setBit]
    grind

end

end Bits
