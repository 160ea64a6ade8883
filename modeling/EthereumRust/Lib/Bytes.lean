import EthereumRust.Lib.MachineInt
import Mathlib.Tactic.Ring
import Mathlib.Data.List.Induction
import Mathlib.Data.Vector.Defs
import Mathlib.Data.Nat.Log

/-!
# Byte strings

Fixed-width big-endian words, and the operations on `Vec<u8>` and slices that a byte buffer is
made of.
-/

namespace Rust

open List

def toBigEndian : Nat → Nat → List UInt8
  | 0, _ => []
  | n + 1, v => toBigEndian n (v / 256) ++ [UInt8.ofNat v]

def ofBigEndian (bytes : List UInt8) : Nat := bytes.foldl (fun acc b => acc * 256 + b.toNat) 0

@[simp] theorem length_toBigEndian (n v : Nat) : (toBigEndian n v).length = n := by
  induction n generalizing v with
  | zero => rfl
  | succ n ih => simp [toBigEndian, ih]

theorem foldl_bigEndian :
    bytes.foldl (fun acc b => acc * 256 + b.toNat) acc =
      acc * 256 ^ bytes.length + ofBigEndian bytes := by
  induction bytes generalizing acc with
  | nil => simp [ofBigEndian]
  | cons b bytes ih =>
    rw [ofBigEndian, foldl_cons, foldl_cons, ih, ih, length_cons]
    ring

@[simp] theorem ofBigEndian_nil : ofBigEndian [] = 0 := rfl

theorem ofBigEndian_cons (b : UInt8) (bytes : List UInt8) :
    ofBigEndian (b :: bytes) = b.toNat * 256 ^ bytes.length + ofBigEndian bytes := by
  rw [ofBigEndian, foldl_cons, foldl_bigEndian]
  simp

theorem ofBigEndian_lt (bytes : List UInt8) : ofBigEndian bytes < 256 ^ bytes.length := by
  induction bytes with
  | nil => simp [ofBigEndian]
  | cons b bytes ih =>
    rw [ofBigEndian_cons]
    have hb := b.toNat_lt
    calc b.toNat * 256 ^ bytes.length + ofBigEndian bytes
        < b.toNat * 256 ^ bytes.length + 256 ^ bytes.length := Nat.add_lt_add_left ih _
      _ = (b.toNat + 1) * 256 ^ bytes.length := by ring
      _ ≤ 256 * 256 ^ bytes.length := Nat.mul_le_mul_right _ hb
      _ = 256 ^ bytes.length * 256 := mul_comm _ _

theorem pow_le_ofBigEndian (hb : b ≠ 0) : 256 ^ bytes.length ≤ ofBigEndian (b :: bytes) := by
  have hpos : 1 ≤ b.toNat := Nat.pos_of_ne_zero fun h => hb (UInt8.toNat_inj.mp h)
  calc 256 ^ bytes.length ≤ b.toNat * 256 ^ bytes.length := Nat.le_mul_of_pos_left _ hpos
    _ ≤ ofBigEndian (b :: bytes) := by rw [ofBigEndian_cons]; exact Nat.le_add_right _ _

theorem ofBigEndian_concat : ofBigEndian (bytes ++ [b]) = ofBigEndian bytes * 256 + b.toNat := by
  rw [ofBigEndian, foldl_append, foldl_cons, foldl_nil, ← ofBigEndian]

theorem toBigEndian_ofBigEndian (bytes : List UInt8) :
    toBigEndian bytes.length (ofBigEndian bytes) = bytes := by
  induction bytes using reverseRecOn with
  | nil => rfl
  | append_singleton bytes b ih =>
    have hb := b.toNat_lt
    have hdiv : (ofBigEndian bytes * 256 + b.toNat) / 256 = ofBigEndian bytes := by omega
    have hlow : UInt8.ofNat (ofBigEndian bytes * 256 + b.toNat) = b := by
      rw [← UInt8.toNat_inj, UInt8.toNat_ofNat']
      omega
    rw [length_append, length_singleton, toBigEndian, ofBigEndian_concat, hdiv, ih, hlow]

theorem ofBigEndian_toBigEndian (h : v < 256 ^ n) : ofBigEndian (toBigEndian n v) = v := by
  induction n generalizing v with
  | zero => exact (Nat.lt_one_iff.mp h).symm
  | succ n ih =>
    have hdiv : v / 256 < 256 ^ n := Nat.div_lt_of_lt_mul (by rwa [mul_comm, ← pow_succ])
    rw [toBigEndian, ofBigEndian_concat, ih hdiv, UInt8.toNat_ofNat', Nat.div_add_mod']

theorem toBigEndian_inj (hv : v < 256 ^ n) (hw : w < 256 ^ n) :
    toBigEndian n v = toBigEndian n w ↔ v = w := by
  constructor
  · intro h
    rw [← ofBigEndian_toBigEndian hv, h, ofBigEndian_toBigEndian hw]
  · intro h
    rw [h]

theorem toBigEndian_zero : toBigEndian n 0 = replicate n 0 := by
  induction n with
  | zero => rfl
  | succ n ih =>
    rw [toBigEndian, ih, replicate_succ']
    rfl

theorem toBigEndian_add (h : v < 256 ^ n) :
    toBigEndian (k + n) v = replicate k 0 ++ toBigEndian n v := by
  induction n generalizing v with
  | zero =>
    rw [Nat.lt_one_iff.mp h, add_zero, toBigEndian_zero, toBigEndian, append_nil]
  | succ n ih =>
    have hdiv : v / 256 < 256 ^ n := Nat.div_lt_of_lt_mul (by rwa [mul_comm, ← pow_succ])
    rw [← add_assoc, toBigEndian, ih hdiv, toBigEndian, append_assoc]

/-- `BigUint::to_bytes_be`: no zeros in front, and one byte for zero. -/
def toBytesBe (v : Nat) : List UInt8 := toBigEndian (Nat.log 256 v + 1) v

theorem length_toBytesBe : (toBytesBe v).length = Nat.log 256 v + 1 := length_toBigEndian ..

theorem replicate_append_toBytesBe (hn : n ≠ 0) (h : v < 256 ^ n) :
    replicate (n - (toBytesBe v).length) 0 ++ toBytesBe v = toBigEndian n v := by
  have hlog : Nat.log 256 v < n := Nat.log_lt_of_lt_pow' hn h
  rw [length_toBytesBe, toBytesBe, ← toBigEndian_add (Nat.lt_pow_succ_log_self (by decide) v)]
  congr 1
  omega

def resize (data : List UInt8) (size : Nat) : List UInt8 :=
  data.take size ++ List.replicate (size - data.length) 0

def slice (data : List UInt8) (start stop : Nat) : Checked (List UInt8) :=
  if start ≤ stop ∧ stop ≤ data.length then .ok ((data.take stop).drop start) else .error .slice

def byteAt (data : List UInt8) (i : Nat) : Checked UInt8 :=
  match data[i]? with
  | some byte => .ok byte
  | none => .error .slice

def overwrite (data : List UInt8) (offset : Nat) (bytes : List UInt8) : List UInt8 :=
  data.take offset ++ bytes ++ data.drop (offset + bytes.length)

theorem slice_eq_ok : slice data start stop = .ok bytes ↔
      bytes = (data.drop start).take (stop - start) ∧ start ≤ stop ∧ stop ≤ data.length := by
  rw [slice, drop_take]
  split_ifs with h <;> simp [h, eq_comm]

def Remains (data : List UInt8) (pos : Nat) (rest : List UInt8) : Prop :=
  ∃ read, data = read ++ rest ∧ read.length = pos

theorem Remains.start (data : List UInt8) : Remains data 0 data := ⟨[], rfl, rfl⟩

section
variable {data rest : List UInt8}

theorem Remains.append (h : Remains data pos (bytes ++ rest)) :
    Remains data (pos + bytes.length) rest := by
  obtain ⟨read, rfl, rfl⟩ := h
  exact ⟨read ++ bytes, (append_assoc ..).symm, length_append⟩

theorem Remains.next (h : Remains data pos (byte :: rest)) :
    Remains data (pos + 1) rest := @Remains.append data rest pos [byte] h

theorem Remains.length_eq (h : Remains data pos rest) : data.length = pos + rest.length := by
  obtain ⟨read, rfl, rfl⟩ := h
  exact length_append

theorem Remains.slice_eq (h : Remains data pos rest) : slice data pos data.length = .ok rest := by
  obtain ⟨read, rfl, rfl⟩ := h
  rw [slice_eq_ok]
  simp

theorem Remains.slice_append (h : Remains data pos (bytes ++ rest))
    (hstop : pos + bytes.length = stop) :
    slice data pos stop = .ok bytes ∧ Remains data stop rest := by
  subst hstop
  refine ⟨?_, h.append⟩
  obtain ⟨read, rfl, rfl⟩ := h
  rw [slice_eq_ok]
  simp

theorem Remains.byteAt_eq (h : Remains data pos (byte :: rest)) : byteAt data pos = .ok byte := by
  obtain ⟨read, rfl, rfl⟩ := h
  simp [byteAt]

theorem Remains.slice_min (h : Remains data pos rest) :
    slice data pos (pos + min n rest.length) = .ok (rest.take n) := by
  obtain ⟨read, rfl, rfl⟩ := h
  rw [slice_eq_ok]
  simp [take_eq_take_iff]

end

@[simp] theorem length_resize (data : List UInt8) :
    (resize data size).length = size := by
  simp only [resize, length_append, length_take, length_replicate]
  omega

theorem resize_drop (h : start + size ≤ data.length + k) :
    resize (data.drop start) size = ((data ++ replicate k 0).drop start).take size := by
  rw [resize, drop_append, take_append, drop_replicate, take_replicate, length_drop]
  congr 2
  omega

theorem resize_take (h : min size data.length ≤ stop)
    (hle : stop ≤ size) : resize (data.take stop) size = resize data size := by
  have htake : data.take (min size stop) = data.take size := by
    rw [take_eq_take_iff]
    omega
  rw [resize, take_take, length_take]
  congr 2
  omega

theorem length_overwrite (h : off + bytes.length ≤ data.length) :
    (overwrite data off bytes).length = data.length := by
  simp only [overwrite, length_append, length_take, length_drop]
  omega

end Rust
