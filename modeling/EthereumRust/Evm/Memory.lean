import EthereumRust.Evm.Execution

/-!
# Byte-addressed memory (`memory.rs`)

Memory grows on writes only. A read past the end is padded with zeros and leaves the memory as it
is. Allocation is taken to succeed.
-/

namespace EthereumRust.Evm
open Rust

structure Memory where
  data : List UInt8

namespace Memory

def new : Memory := ⟨[]⟩

def len (memory : Memory) : Nat := memory.data.length

def resize (memory : Memory) (newSize : Nat) : Memory :=
  if newSize > memory.data.length then ⟨Rust.resize memory.data newSize⟩ else memory

def get (memory : Memory) (offset size : Nat) : List UInt8 :=
  if size = 0 then []
  else
    let stop := saturatingAddUsize offset size
    if offset ≥ memory.data.length then List.replicate size 0
    else if stop > memory.data.length then Rust.resize (memory.data.drop offset) size
    else (memory.data.take stop).drop offset

def getU256 (memory : Memory) (offset : Nat) : U256 := .fromBigEndian (memory.get offset 32)

def set (memory : Memory) (offset : Nat) (data : List UInt8) : Except EvmError Memory :=
  if data.isEmpty then .ok memory
  else
    match checkedAddUsize offset data.length with
    | none => .error .InvalidMemoryAccess
    | some stop => .ok ⟨overwrite (memory.resize stop).data offset data⟩

def setU256 (memory : Memory) (offset : Nat) (value : U256) : Except EvmError Memory :=
  memory.set offset (toBigEndian 32 value.toNat)

def setByte (memory : Memory) (offset : Nat) (byte : UInt8) : Except EvmError Memory :=
  match checkedAddUsize offset 1 with
  | none => .error .InvalidMemoryAccess
  | some stop => .ok ⟨(memory.resize stop).data.set offset byte⟩

def effectiveLen (memory : Memory) : U256 := .ofUsize memory.data.length

theorem len_resize (memory : Memory) (newSize : Nat) :
    (memory.resize newSize).len = max memory.len newSize := by
  unfold resize len
  split
  · rw [length_resize]
    omega
  · omega

variable {memory : Memory}

theorem len_set_nil (h : memory.set off [] = .ok memory') : memory'.len = memory.len := by
  cases h
  rfl

theorem len_set {data : List UInt8} (h : memory.set off data = .ok memory') (hne : data ≠ []) :
    memory'.len = max memory.len (off + data.length) ∧ off + data.length < wordBound := by
  unfold set at h
  rw [if_neg fun hnil => hne (List.isEmpty_iff.mp hnil)] at h
  unfold checkedAddUsize at h
  by_cases hstop : off + data.length < wordBound
  · rw [if_pos hstop] at h
    cases h
    have hlen := len_resize memory (off + data.length)
    refine ⟨?_, hstop⟩
    change (overwrite _ _ _).length = _
    rw [length_overwrite]
    · exact hlen
    · change _ ≤ (memory.resize (off + data.length)).len
      omega
  · rw [if_neg hstop] at h
    cases h

theorem len_setU256 (h : memory.setU256 off value = .ok memory') :
    memory'.len = max memory.len (off + 32) ∧ off + 32 < wordBound := by
  have hlen : (toBigEndian 32 value.toNat).length = 32 := length_toBigEndian ..
  have hne : toBigEndian 32 value.toNat ≠ [] := by
    intro hnil
    rw [hnil] at hlen
    cases hlen
  have hset := len_set h hne
  rwa [hlen] at hset

theorem len_setByte (h : memory.setByte off byte = .ok memory') :
    memory'.len = max memory.len (off + 1) ∧ off + 1 < wordBound := by
  unfold setByte checkedAddUsize at h
  by_cases hstop : off + 1 < wordBound
  · rw [if_pos hstop] at h
    cases h
    have hlen := len_resize memory (off + 1)
    refine ⟨?_, hstop⟩
    change (List.set _ _ _).length = _
    rw [List.length_set]
    exact hlen
  · rw [if_neg hstop] at h
    cases h

end Memory

end EthereumRust.Evm
