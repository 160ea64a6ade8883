import EthereumRust.Lib.Method
import Mathlib.Algebra.Ring.Nat

/-!
# Machine integers

`u64` is `UInt64`; `usize`, 64 bits wide, is a natural number, and an operation that leaves its
range panics or saturates as the Rust one does. Every operation comes with its value in `Nat`,
which is what proofs compute with.
-/

namespace Rust

def wordBound : Nat := 2 ^ 64

/-- The longest that a slice can be. -/
def isizeMax : Nat := 2 ^ 63 - 1

def u64Max : UInt64 := 0xffffffffffffffff

def addUsize (a b : Nat) : Checked Nat :=
  if a + b < wordBound then .ok (a + b) else .error .arithmetic

def subUsize (a b : Nat) : Checked Nat := if b ≤ a then .ok (a - b) else .error .arithmetic

def mulUsize (a b : Nat) : Checked Nat :=
  if a * b < wordBound then .ok (a * b) else .error .arithmetic

def divUsize (a b : Nat) : Checked Nat := if b = 0 then .error .division else .ok (a / b)

def addU64 (a b : UInt64) : Checked UInt64 :=
  if a.toNat + b.toNat < wordBound then .ok (a + b) else .error .arithmetic

/-- How the program is compiled: an overflow of `+` on `u64` panics, or wraps. -/
class Build where
  overflowChecks : Bool

namespace Debug

scoped instance : Build := ⟨true⟩

end Debug

def plusU64 [Build] (a b : UInt64) : Checked UInt64 :=
  if Build.overflowChecks then addU64 a b else .ok (a + b)

def plusU8 [Build] (a b : UInt8) : Checked UInt8 :=
  if Build.overflowChecks ∧ 256 ≤ a.toNat + b.toNat then .error .arithmetic else .ok (a + b)

def minusU8 [Build] (a b : UInt8) : Checked UInt8 :=
  if Build.overflowChecks ∧ a < b then .error .arithmetic else .ok (a - b)

def subU64 (a b : UInt64) : Checked UInt64 := if b ≤ a then .ok (a - b) else .error .arithmetic

def mulU64 (a b : UInt64) : Checked UInt64 :=
  if a.toNat * b.toNat < wordBound then .ok (a * b) else .error .arithmetic

def divU64 (a b : UInt64) : Checked UInt64 := if b = 0 then .error .division else .ok (a / b)

def remUsize (a b : Nat) : Checked Nat := if b = 0 then .error .division else .ok (a % b)

def saturatingAddUsize (a b : Nat) : Nat := min (a + b) (wordBound - 1)

def checkedAddUsize (a b : Nat) : Option Nat :=
  if a + b < wordBound then some (a + b) else none

def saturatingAdd (a b : UInt64) : UInt64 := .ofNat (min (a.toNat + b.toNat) (wordBound - 1))

def saturatingSub (a b : UInt64) : UInt64 := .ofNat (a.toNat - b.toNat)

def saturatingMul (a b : UInt64) : UInt64 := .ofNat (min (a.toNat * b.toNat) (wordBound - 1))

def saturatingPow (a : UInt64) (n : Nat) : UInt64 := .ofNat (min (a.toNat ^ n) (wordBound - 1))

theorem addU64_ne_division : addU64 a b ≠ .error .division := by
  unfold addU64
  split <;> simp

theorem remUsize_ne_division (h : b ≠ 0) : remUsize a b ≠ .error .division := by
  rw [remUsize, if_neg h]
  simp

theorem toNat_lt_wordBound (a : UInt64) : a.toNat < wordBound := a.toNat_lt

theorem toNat_ofNat_of_lt (h : n < wordBound) : (UInt64.ofNat n).toNat = n := by
  exact Nat.mod_eq_of_lt h

private theorem min_wordBound : min n (wordBound - 1) < wordBound :=
  lt_of_le_of_lt (min_le_right _ _) (by decide)

@[simp] theorem toNat_saturatingAdd :
    (saturatingAdd a b).toNat = min (a.toNat + b.toNat) (wordBound - 1) :=
  toNat_ofNat_of_lt min_wordBound

@[simp] theorem toNat_saturatingMul :
    (saturatingMul a b).toNat = min (a.toNat * b.toNat) (wordBound - 1) :=
  toNat_ofNat_of_lt min_wordBound

@[simp] theorem toNat_saturatingPow :
    (saturatingPow a n).toNat = min (a.toNat ^ n) (wordBound - 1) :=
  toNat_ofNat_of_lt min_wordBound

theorem minusU8_of_le [Build] (h : b ≤ a) : minusU8 a b = .ok (a - b) :=
  if_neg fun hlt => UInt8.not_lt.mpr h hlt.2

theorem minusU8_of_lt [Build] (h : a < b) :
    minusU8 a b = if Build.overflowChecks then .error .arithmetic else .ok (a - b) := by
  simp only [minusU8, h, and_true]

theorem ite_ok_eq_ok {α ε : Type} [Decidable c] {a b : α} {e : ε} (hc : P → c)
    (ha : c → (a = b ↔ P)) : (if c then .ok a else .error e : Except ε α) = .ok b ↔ P := by
  split_ifs with h
  · rw [Except.ok.injEq, ha h]
  · refine ⟨fun heq => ?_, fun hP => absurd (hc hP) h⟩
    cases heq

theorem subUsize_of_le (h : b ≤ a) : subUsize a b = .ok (a - b) := if_pos h

theorem addUsize_of_lt (h : a + b < wordBound) : addUsize a b = .ok (a + b) := if_pos h

theorem addUsize_eq_ok : addUsize a b = .ok c ↔ c = a + b ∧ a + b < wordBound := by
  refine ite_ok_eq_ok And.right fun h => ?_
  rw [and_iff_left h, eq_comm]

theorem mulUsize_eq_ok : mulUsize a b = .ok c ↔ c = a * b ∧ a * b < wordBound := by
  refine ite_ok_eq_ok And.right fun h => ?_
  rw [and_iff_left h, eq_comm]

variable {a b : UInt64}

theorem addU64_of_lt (h : a.toNat + b.toNat < wordBound) : addU64 a b = .ok (a + b) := if_pos h

theorem addU64_of_le (h : wordBound ≤ a.toNat + b.toNat) : addU64 a b = .error .arithmetic :=
  if_neg (not_lt.mpr h)

theorem toNat_add_of_lt (h : a.toNat + b.toNat < wordBound) :
    (a + b).toNat = a.toNat + b.toNat := by
  exact Nat.mod_eq_of_lt h

theorem addU64_eq_ok : addU64 a b = .ok c ↔ c.toNat = a.toNat + b.toNat := by
  refine ite_ok_eq_ok (fun h => h ▸ toNat_lt_wordBound c) fun hlt => ?_
  rw [← UInt64.toNat_inj, toNat_add_of_lt hlt, eq_comm]

theorem mulU64_of_lt (h : a.toNat * b.toNat < wordBound) : mulU64 a b = .ok (a * b) := if_pos h

theorem mulU64_of_le (h : wordBound ≤ a.toNat * b.toNat) : mulU64 a b = .error .arithmetic :=
  if_neg (not_lt.mpr h)

theorem toNat_mul_of_lt (h : a.toNat * b.toNat < wordBound) :
    (a * b).toNat = a.toNat * b.toNat := by
  exact Nat.mod_eq_of_lt h

theorem subU64_of_le (h : b ≤ a) : subU64 a b = .ok (a - b) := if_pos h

theorem subU64_of_lt (h : a < b) : subU64 a b = .error .arithmetic := if_neg (UInt64.not_le.mpr h)

theorem subU64_eq_ok : subU64 a b = .ok c ↔ c.toNat + b.toNat = a.toNat := by
  refine ite_ok_eq_ok (fun h => UInt64.le_iff_toNat_le.mpr (by omega)) fun hle => ?_
  rw [← UInt64.toNat_inj, UInt64.toNat_sub_of_le _ _ hle]
  rw [UInt64.le_iff_toNat_le] at hle
  omega

section
variable [Build]

theorem plusU64_of_lt (h : a.toNat + b.toNat < wordBound) : plusU64 a b = .ok (a + b) := by
  rw [plusU64, addU64_of_lt h, ite_self]

theorem eq_of_plusU8 {a b c : UInt8} (h : plusU8 a b = .ok c) : c = a + b := by
  rw [plusU8] at h
  split_ifs at h
  exact (Except.ok.inj h).symm

theorem exists_plusU64_one (h : Build.overflowChecks = true → a.toNat + 1 < wordBound) :
    ∃ c, plusU64 a 1 = .ok c ∧ c.toNat ≤ a.toNat + 1 := by
  have hle : (a + 1).toNat ≤ a.toNat + 1 := by
    exact Nat.mod_le _ _
  refine ⟨a + 1, ?_, hle⟩
  rw [plusU64]
  split_ifs with hchk
  · exact addU64_of_lt (h hchk)
  · rfl

end

end Rust
