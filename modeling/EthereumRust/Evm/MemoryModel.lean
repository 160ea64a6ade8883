import EthereumRust.Evm.Memory
import EthereumRust.Lib.Padded

/-!
# Memory as an unbounded array of bytes

`Store` is what the methods of `memory.rs` are for: an array without an end, all zero in the
beginning, together with the length in use.
-/

namespace EthereumRust.Evm
open Rust Padded List Method

namespace Memory

namespace InPlace

/-- `offset.checked_add(len).ok_or(EvmError::InvalidMemoryAccess)?`. -/
def checkedEnd (offset len : Nat) : Method Memory EvmError Nat :=
  match checkedAddUsize offset len with
  | some stop => pure stop
  | none => .fail .InvalidMemoryAccess

def copyFromSlice (offset stop : Nat) (bytes : List UInt8) : Method Memory EvmError Unit :=
  fun memory =>
    if offset ≤ stop ∧ stop ≤ memory.data.length then
      if bytes.length = stop - offset then .ok () ⟨overwrite memory.data offset bytes⟩
      else .panic .assertion
    else .panic .slice

def assign (offset : Nat) (byte : UInt8) : Method Memory EvmError Unit := fun memory =>
  if offset < memory.data.length then .ok () ⟨memory.data.set offset byte⟩ else .panic .slice

def resize (newSize : Nat) : Method Memory EvmError Unit :=
  Method.update fun memory => memory.resize newSize

def set (offset : Nat) (data : List UInt8) : Method Memory EvmError Unit :=
  if data.isEmpty then pure ()
  else do
    let stop ← checkedEnd offset data.length
    resize stop
    copyFromSlice offset stop data

def setU256 (offset : Nat) (value : U256) : Method Memory EvmError Unit :=
  set offset (toBigEndian 32 value.toNat)

def setByte (offset : Nat) (byte : UInt8) : Method Memory EvmError Unit := do
  let stop ← checkedEnd offset 1
  resize stop
  assign offset byte

def copyWithin (dst src len : Nat) : Method Memory EvmError Unit :=
  if len = 0 then pure ()
  else do
    let srcEnd ← checkedEnd src len
    let dstEnd ← checkedEnd dst len
    resize (max srcEnd dstEnd)
    let data ← Method.read fun memory => memory.get src len
    copyFromSlice dst dstEnd data

section
variable {off len : Nat}

theorem checkedEnd_of_lt (h : off + len < wordBound) :
    checkedEnd off len mem = .ok (off + len) mem := by
  rw [checkedEnd, checkedAddUsize, if_pos h]
  rfl

theorem checkedEnd_of_le (h : ¬ off + len < wordBound) :
    checkedEnd off len mem = .err .InvalidMemoryAccess mem := by
  rw [checkedEnd, checkedAddUsize, if_neg h]
  rfl

theorem copyFromSlice_eq (hbs : bytes.length = len) (h : off + len ≤ mem.len) :
    copyFromSlice off (off + len) bytes mem = .ok () ⟨overwrite mem.data off bytes⟩ := by
  rw [copyFromSlice, if_pos ⟨Nat.le_add_right _ _, h⟩, if_pos (by omega)]

def outcome (memory : Memory) : Except EvmError Memory → Outcome Memory EvmError Unit
  | .ok memory' => .ok () memory'
  | .error e => .err e memory

theorem set_eq : set off bytes mem = outcome mem (mem.set off bytes) := by
  unfold set Memory.set
  split_ifs with hemp
  · rfl
  · by_cases h : off + bytes.length < wordBound
    · have hlen := len_resize mem (off + bytes.length)
      rw [bind_of_ok (checkedEnd_of_lt h), checkedAddUsize, if_pos h, resize,
        bind_update, copyFromSlice_eq rfl (by omega)]
      rfl
    · rw [bind_of_err (checkedEnd_of_le h), checkedAddUsize, if_neg h]
      rfl

theorem setByte_eq {byte : UInt8} :
    setByte off byte mem = outcome mem (mem.setByte off byte) := by
  unfold setByte Memory.setByte
  by_cases h : off + 1 < wordBound
  · have hlen := len_resize mem (off + 1)
    have hin : off < (mem.resize (off + 1)).data.length := by
      change off < (mem.resize (off + 1)).len
      omega
    rw [bind_of_ok (checkedEnd_of_lt h), checkedAddUsize, if_pos h, resize,
      bind_update, assign, if_pos hin]
    rfl
  · rw [bind_of_err (checkedEnd_of_le h), checkedAddUsize, if_neg h]
    rfl

end

end InPlace

end Memory

structure Store where
  cells : Nat → UInt8
  length : Nat

namespace Store

def empty : Store := ⟨fun _ => 0, 0⟩

def write (store : Store) (offset : Nat) (bytes : List UInt8) (stop : Nat) : Store :=
  ⟨Padded.write store.cells offset bytes, max store.length stop⟩

end Store

namespace Memory

/-- The memory as an array that is zero behind its end. -/
def store (memory : Memory) : Store := ⟨padded 0 memory.data, memory.len⟩

theorem store_new : new.store = .empty := rfl

section
variable {mem : Memory} {off : Nat} {bytes : List UInt8}

theorem store_resize : (mem.resize size).store = ⟨mem.store.cells, max mem.len size⟩ := by
  have hcel : padded 0 (mem.resize size).data = padded 0 mem.data := by
    unfold resize
    split_ifs with h
    · rw [Rust.resize, take_of_length_le (le_of_lt h), padded_append_replicate]
    · rfl
  rw [store, hcel, len_resize, store]

theorem store_overwrite (h : off + bytes.length ≤ size) :
    (mk (overwrite (mem.resize size).data off bytes)).store =
      mem.store.write off bytes size := by
  have hlen : off + bytes.length ≤ (mem.resize size).data.length := by
    change _ ≤ (mem.resize size).len
    rw [len_resize]
    exact le_trans h (le_max_right ..)
  have hcel : padded 0 (overwrite (mem.resize size).data off bytes) =
      Padded.write (mem.resize size).store.cells off bytes := padded_overwrite hlen
  rw [store, hcel, len, length_overwrite hlen, store_resize]
  exact congrArg _ (len_resize mem size)

theorem get_eq_read (h : off + size < wordBound ∨ mem.len + 1 < wordBound) :
    mem.get off size = read mem.store.cells off size := by
  change mem.get off size = read (padded 0 mem.data) off size
  unfold get
  dsimp only
  split_ifs with hzero hst hstop
  · rw [hzero]
    rfl
  · rw [read_padded_of_ge hst]
  · rw [read_padded, Rust.resize, length_drop]
  · have hexa : saturatingAddUsize off size = off + size := by
      simp only [len, saturatingAddUsize] at h hstop ⊢
      omega
    rw [hexa] at hstop ⊢
    rw [read_padded_of_le (Nat.le_of_not_gt hstop), drop_take, Nat.add_sub_cancel_left]

end

inductive Call where
  | resize (newSize : Nat)
  | set (offset : Nat) (data : List UInt8)
  | setByte (offset : Nat) (byte : UInt8)
  | setU256 (offset : Nat) (value : U256)
  | copyWithin (dst src len : Nat)

namespace Call

def perform : Call → Method Memory EvmError Unit
  | resize newSize => InPlace.resize newSize
  | set offset data => InPlace.set offset data
  | setByte offset byte => InPlace.setByte offset byte
  | setU256 offset value => InPlace.setU256 offset value
  | copyWithin dst src len => InPlace.copyWithin dst src len

/-- The ranges that are touched end inside of the address space. -/
def Fits : Call → Prop
  | resize _ => True
  | set offset data => data = [] ∨ offset + data.length < wordBound
  | setByte offset _ => offset + 1 < wordBound
  | setU256 offset _ => offset + 32 < wordBound
  | copyWithin dst src len => len = 0 ∨ src + len < wordBound ∧ dst + len < wordBound

instance (call : Call) : Decidable call.Fits := by
  cases call <;> unfold Fits <;> infer_instance

def apply : Call → Store → Store
  | resize newSize, store => ⟨store.cells, max store.length newSize⟩
  | set offset data, store =>
    if data = [] then store else store.write offset data (offset + data.length)
  | setByte offset byte, store => store.write offset [byte] (offset + 1)
  | setU256 offset value, store => store.write offset (toBigEndian 32 value.toNat) (offset + 32)
  | copyWithin dst src len, store =>
    if len = 0 then store
    else store.write dst (read store.cells src len) (max (src + len) (dst + len))

def effect (call : Call) (store : Store) : Store :=
  if call.Fits then call.apply store else store

end Call

section
variable {mem : Memory}

theorem setByte_of_lt (h : off + 1 < wordBound) :
    ∃ mem', mem.setByte off byte = .ok mem' ∧
      mem'.store = mem.store.write off [byte] (off + 1) := by
  refine ⟨_, by rw [setByte, checkedAddUsize, if_pos h], ?_⟩
  have hin : off < (mem.resize (off + 1)).data.length := by
    change off < (mem.resize (off + 1)).len
    rw [len_resize]
    omega
  rw [store, padded_set hin, len, length_set]
  change Store.mk (Padded.write (mem.resize (off + 1)).store.cells off [byte])
    (mem.resize (off + 1)).len = _
  rw [store_resize, len_resize]
  rfl

theorem set_of_lt {data : List UInt8} (hne : data ≠ []) (h : off + data.length < wordBound) :
    ∃ mem', mem.set off data = .ok mem' ∧
      mem'.store = mem.store.write off data (off + data.length) := by
  refine ⟨_, ?_, store_overwrite (le_refl _)⟩
  rw [set, if_neg fun hnil => hne (isEmpty_iff.mp hnil), checkedAddUsize, if_pos h]

theorem set_of_le {data : List UInt8} (hne : data ≠ []) (h : ¬ off + data.length < wordBound) :
    mem.set off data = .error .InvalidMemoryAccess := by
  rw [set, if_neg fun hnil => hne (isEmpty_iff.mp hnil), checkedAddUsize, if_neg h]

theorem toBigEndian_word_ne_nil (value : U256) : toBigEndian 32 value.toNat ≠ [] := by
  intro hnil
  have hlen := length_toBigEndian 32 value.toNat
  rw [hnil] at hlen
  cases hlen

theorem copyWithin_of_lt {dst src len : Nat} (hne : len ≠ 0) (hsrc : src + len < wordBound)
    (hdst : dst + len < wordBound) :
    ∃ mem', InPlace.copyWithin dst src len mem = .ok () mem' ∧
      mem'.store =
        mem.store.write dst (read mem.store.cells src len) (max (src + len) (dst + len)) := by
  have hgr := len_resize mem (max (src + len) (dst + len))
  have hread : (mem.resize (max (src + len) (dst + len))).get src len =
      read mem.store.cells src len := by
    rw [get_eq_read (.inl hsrc), store_resize]
  refine ⟨_, ?_, store_overwrite (by rw [length_read]; exact le_max_right ..)⟩
  rw [InPlace.copyWithin, if_neg hne, bind_of_ok (InPlace.checkedEnd_of_lt hsrc),
    bind_of_ok (InPlace.checkedEnd_of_lt hdst), InPlace.resize, bind_update,
    bind_read, hread, InPlace.copyFromSlice_eq length_read (by omega)]

/-- A call within bounds does to the memory what it does to the array. -/
theorem perform_of_fits {call : Call} (h : call.Fits) :
    ∃ mem', call.perform mem = .ok () mem' ∧ mem'.store = call.apply mem.store := by
  cases call with
  | resize newSize => exact ⟨_, rfl, store_resize⟩
  | set off data =>
    by_cases hne : data = []
    · subst hne
      exact ⟨mem, rfl, rfl⟩
    · obtain ⟨mem', hset, hsto⟩ := set_of_lt hne (h.resolve_left hne)
      refine ⟨mem', ?_, ?_⟩
      · rw [Call.perform, InPlace.set_eq, hset]
        rfl
      · rw [hsto, Call.apply, if_neg hne]
  | setByte off byte =>
    obtain ⟨mem', hset, hsto⟩ := setByte_of_lt h
    refine ⟨mem', ?_, hsto⟩
    rw [Call.perform, InPlace.setByte_eq, hset]
    rfl
  | setU256 off value =>
    have hlen := length_toBigEndian 32 value.toNat
    obtain ⟨mem', hset, hsto⟩ :=
      set_of_lt (toBigEndian_word_ne_nil value) (by rw [hlen]; exact h)
    refine ⟨mem', ?_, ?_⟩
    · rw [Call.perform, InPlace.setU256, InPlace.set_eq, hset]
      rfl
    · rw [hsto, hlen, Call.apply]
  | copyWithin dst src len =>
    by_cases hne : len = 0
    · subst hne
      exact ⟨mem, rfl, rfl⟩
    · obtain ⟨hsrc, hdst⟩ := h.resolve_left hne
      obtain ⟨mem', hcopy, hsto⟩ := copyWithin_of_lt hne hsrc hdst
      refine ⟨mem', hcopy, ?_⟩
      rw [hsto, Call.apply, if_neg hne]

theorem perform_of_not_fits {call : Call} (h : ¬ call.Fits) :
    call.perform mem = .err .InvalidMemoryAccess mem := by
  cases call with
  | resize newSize => exact absurd trivial h
  | set off data =>
    obtain ⟨hne, hstop⟩ := not_or.mp h
    rw [Call.perform, InPlace.set_eq, set_of_le hne hstop]
    rfl
  | setByte off byte =>
    have hstop : ¬ off + 1 < wordBound := h
    rw [Call.perform, InPlace.setByte_eq, setByte, checkedAddUsize, if_neg hstop]
    rfl
  | setU256 off value =>
    have hstop : ¬ off + (toBigEndian 32 value.toNat).length < wordBound := by
      rw [length_toBigEndian]
      exact h
    rw [Call.perform, InPlace.setU256, InPlace.set_eq,
      set_of_le (toBigEndian_word_ne_nil value) hstop]
    rfl
  | copyWithin dst src len =>
    obtain ⟨hne, hends⟩ := not_or.mp h
    rw [Call.perform, InPlace.copyWithin, if_neg hne]
    by_cases hsrc : src + len < wordBound
    · rw [bind_of_ok (InPlace.checkedEnd_of_lt hsrc),
        bind_of_err (InPlace.checkedEnd_of_le fun hdst => hends ⟨hsrc, hdst⟩)]
    · rw [bind_of_err (InPlace.checkedEnd_of_le hsrc)]

def run : List Call → Method Memory EvmError Unit
  | [] => pure ()
  | call :: calls => do
    let _ ← Method.attempt call.perform
    run calls

/-- What the calls do to the array. -/
def arrayAfter (calls : List Call) (store : Store) : Store :=
  calls.foldl (fun store call => call.effect store) store

theorem attempt_perform (call : Call) :
    ∃ (res : Except EvmError Unit) (mem' : Memory),
      (attempt call.perform : Method Memory EvmError _) mem = .ok res mem' ∧
        mem'.store = call.effect mem.store := by
  unfold attempt Call.effect
  split_ifs with h
  · obtain ⟨mem', hperf, hsto⟩ := perform_of_fits h
    exact ⟨.ok (), mem', by rw [hperf], hsto⟩
  · exact ⟨.error .InvalidMemoryAccess, mem, by rw [perform_of_not_fits h], rfl⟩

theorem run_refines (mem : Memory) :
    ∃ mem', run calls mem = .ok () mem' ∧
      mem'.store = arrayAfter calls mem.store := by
  induction calls generalizing mem with
  | nil => exact ⟨mem, rfl, rfl⟩
  | cons call calls ih =>
    obtain ⟨res, next, hnext, hsto⟩ := attempt_perform call
    obtain ⟨mem', hrun, harr⟩ := ih next
    refine ⟨mem', ?_, ?_⟩
    · rw [run, bind_of_ok hnext, hrun]
    · rw [harr, hsto, arrayAfter, arrayAfter, foldl_cons]

end

/-- After any calls on a new memory, all reads return the bytes of the array, and a further call
has its effect on the array or returns an error and changes nothing. A `Vec` holds at most
`isize::MAX` bytes, so that an allocation that succeeds keeps the length below. -/
theorem memory_refines_array (calls : List Call)
    (hlen : (arrayAfter calls .empty).length ≤ isizeMax) :
    ∃ mem, run calls .new = .ok () mem ∧
      mem.len = (arrayAfter calls .empty).length ∧
      (∀ off size, mem.get off size = read (arrayAfter calls .empty).cells off size) ∧
      (∀ off, mem.getU256 off =
        .fromBigEndian (read (arrayAfter calls .empty).cells off 32)) ∧
      ∀ call : Call, if call.Fits
        then ∃ mem', call.perform mem = .ok () mem' ∧
          mem'.store = call.apply (arrayAfter calls .empty)
        else call.perform mem = .err .InvalidMemoryAccess mem := by
  obtain ⟨mem, hrun, hsto⟩ := run_refines .new
  rw [store_new] at hsto
  have hlength : mem.len = (arrayAfter calls .empty).length := congrArg Store.length hsto
  have hget : ∀ off size,
      mem.get off size = read (arrayAfter calls .empty).cells off size := by
    intro off size
    rw [← hsto]
    apply get_eq_read
    unfold isizeMax at hlen
    unfold wordBound
    omega
  refine ⟨mem, hrun, hlength, hget, ?_, ?_⟩
  · intro off
    rw [getU256, hget]
  · intro call
    split_ifs with h
    · obtain ⟨mem', hperf, heff⟩ := perform_of_fits h
      exact ⟨mem', hperf, by rw [heff, hsto]⟩
    · exact perform_of_not_fits h

/-- A copy onto a range that overlaps its source, and a write at the end of the address space. -/
theorem memory_refines_array_overlap : ∃ mem,
    run [.set 1 [7, 8], .copyWithin 2 1 2, .setByte (2 ^ 64 - 1) 9] .new = .ok () mem ∧
      mem.len = 4 ∧ mem.get 0 6 = [0, 7, 7, 8, 0, 0] := by
  obtain ⟨mem, hrun, hlen, hget, -⟩ := memory_refines_array
    [.set 1 [7, 8], .copyWithin 2 1 2, .setByte (2 ^ 64 - 1) 9] (by decide)
  refine ⟨mem, hrun, ?_, ?_⟩
  · rw [hlen]
    decide
  · rw [hget]
    decide

end Memory

end EthereumRust.Evm
