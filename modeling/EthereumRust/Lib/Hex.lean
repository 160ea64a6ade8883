import Mathlib.Tactic.SplitIfs

/-!
# Hexadecimal texts

`hex::encode` writes two lower-case digits for a byte, and `hex::decode` reads digits of both cases.
-/

namespace Rust.Hex

open List

def encode (data : List UInt8) : String :=
  String.ofList (data.flatMap fun byte =>
    [Nat.digitChar (byte.toNat / 16), Nat.digitChar (byte.toNat % 16)])

def value (c : Char) : Option Nat :=
  if '0' ≤ c ∧ c ≤ '9' then some (c.toNat - '0'.toNat)
  else if 'a' ≤ c ∧ c ≤ 'f' then some (c.toNat - 'a'.toNat + 10)
  else if 'A' ≤ c ∧ c ≤ 'F' then some (c.toNat - 'A'.toNat + 10)
  else none

def pairs : List Char → Option (List UInt8)
  | [] => some []
  | [_] => none
  | high :: low :: rest => do
    let high ← value high
    let low ← value low
    let bytes ← pairs rest
    return UInt8.ofNat (16 * high + low) :: bytes

def decode (text : String) : Option (List UInt8) := pairs text.toList

theorem value_digitChar : ∀ n < 16, value n.digitChar = some n := by decide

theorem decode_encode (data : List UInt8) : decode (encode data) = some data := by
  rw [decode, encode, String.toList_ofList]
  induction data with
  | nil => rfl
  | cons byte data ih =>
    have hlt := byte.toNat_lt
    have hhigh := value_digitChar (byte.toNat / 16) (by omega)
    have hlow := value_digitChar (byte.toNat % 16) (by omega)
    simp only [flatMap_cons, cons_append, nil_append, pairs, hhigh, hlow, ih,
      Option.bind_eq_bind, Option.bind_some, Nat.div_add_mod, UInt8.ofNat_toNat]
    rfl

/-- A digit of either case. -/
def IsDigit (c : Char) : Prop := (value c).isSome

theorem IsDigit.utf8Size_eq (h : IsDigit c) : c.utf8Size = 1 := by
  have hle : c.val ≤ 127 := by
    rw [IsDigit, value] at h
    split_ifs at h with h₁ h₂ h₃
    · exact UInt32.le_trans h₁.2 (by decide)
    · exact UInt32.le_trans h₂.2 (by decide)
    · exact UInt32.le_trans h₃.2 (by decide)
    · cases h
  exact if_pos hle

theorem utf8ByteSize_of_digits {text : String} (h : ∀ c ∈ text.toList, IsDigit c) :
    text.utf8ByteSize = text.length := by
  have hlist (l : List Char) (h : ∀ c ∈ l, IsDigit c) :
      (String.ofList l).utf8ByteSize = l.length := by
    induction l with
    | nil => rfl
    | cons c l ih =>
      obtain ⟨hc, h⟩ := forall_mem_cons.mp h
      rw [String.ofList_cons, String.utf8ByteSize_append, String.utf8ByteSize_singleton,
        hc.utf8Size_eq, ih h, length_cons, Nat.add_comm]
  rw [← String.length_toList, ← hlist _ h, String.ofList_toList]

theorem of_pairs_eq_some (h : pairs l = some bytes) :
    l.length = 2 * bytes.length ∧ ∀ c ∈ l, IsDigit c := by
  fun_induction pairs l generalizing bytes with
  | case1 => cases h; exact ⟨rfl, nofun⟩
  | case2 => cases h
  | case3 high low rest ih =>
    simp only [Option.bind_eq_bind, Option.bind_eq_some_iff] at h
    obtain ⟨a, ha, b, hb, bytes', hrest, hbs⟩ := h
    cases hbs
    obtain ⟨hlen, hrest⟩ := ih hrest
    refine ⟨?_, forall_mem_cons.mpr ⟨?_, forall_mem_cons.mpr ⟨?_, hrest⟩⟩⟩
    · simp only [length_cons]
      omega
    · exact Option.isSome_of_mem ha
    · exact Option.isSome_of_mem hb

theorem exists_pairs {l : List Char} (hlen : l.length = 2 * n)
    (h : ∀ c ∈ l, IsDigit c) : ∃ bytes, pairs l = some bytes := by
  fun_induction pairs l generalizing n with
  | case1 => exact ⟨_, rfl⟩
  | case2 =>
    rw [length_singleton] at hlen
    omega
  | case3 high low rest ih =>
    obtain ⟨hhigh, h⟩ := forall_mem_cons.mp h
    obtain ⟨hlow, h⟩ := forall_mem_cons.mp h
    obtain ⟨a, ha⟩ := Option.isSome_iff_exists.mp hhigh
    obtain ⟨b, hb⟩ := Option.isSome_iff_exists.mp hlow
    simp only [length_cons] at hlen
    obtain ⟨bytes, hbs⟩ := ih (n := n - 1) (by omega) h
    exact ⟨_, by simp only [ha, hb, hbs]; rfl⟩

theorem pairs_congr (h : l.map value = l'.map value) : pairs l = pairs l' := by
  fun_induction pairs l generalizing l' with
  | case1 =>
    rw [map_eq_nil_iff.mp h.symm]
    rfl
  | case2 =>
    obtain ⟨c, rfl⟩ := length_eq_one_iff.mp (length_map value ▸ congrArg length h.symm)
    rfl
  | case3 high low rest ih =>
    obtain ⟨high', l', rfl, hhigh, h⟩ := map_eq_cons_iff.mp h.symm
    obtain ⟨low', rest', rfl, hlow, h⟩ := map_eq_cons_iff.mp h
    rw [pairs, hhigh, hlow, ih h.symm]

end Rust.Hex
