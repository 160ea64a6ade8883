import EthereumRust.Lib.Call
import EthereumRust.Lib.Radix
import EthereumRust.Rlp.Decode

/-!
# Nibbles (`crates/trie`: `nibbles.rs`, `lib.rs`)

A path is a list of half bytes. Every `Nibbles` that the trie handles comes from bytes, so an entry
is below 16 and `Fin 16` is its type.
-/

namespace EthereumRust.Trie

open Rust List

inductive TrieError where
  | keyNotFound
  | invalidNode
  | invalidProof
  | rlpError (error : Rlp.RlpError)
  | invalidKeyLength
  | invalidNibbles
  deriving DecidableEq, Repr

abbrev Nibble := Fin 16

abbrev Nibbles := List Nibble

namespace Nibbles

def high (byte : UInt8) : Nibble := ⟨byte.toNat / 16, by have := byte.toNat_lt; omega⟩

def low (byte : UInt8) : Nibble := ⟨byte.toNat % 16, Nat.mod_lt _ (by decide)⟩

def pack (high low : Nibble) : UInt8 := .ofNat (16 * high.val + low.val)

def fromBytes (bytes : Bytes) : Nibbles := bytes.flatMap fun byte => [high byte, low byte]

def commonPrefixLen (self other : Nibbles) : Nat :=
  ((self.zip other).takeWhile fun pair => pair.1 == pair.2).length

def packed : Nibbles → Bytes
  | a :: b :: rest => pack a b :: packed rest
  | [a] => [pack a 0]
  | [] => []

def flags (isLeaf oddLen : Bool) : Nibble :=
  match isLeaf, oddLen with
  | false, false => 0
  | false, true => 1
  | true, false => 2
  | true, true => 3

/-- A path of odd length is not empty, so `self.data[0]` is there. -/
def encodeCompact (self : Nibbles) (isLeaf : Bool) : Bytes :=
  if self.length % 2 ≠ 0 then pack (flags isLeaf true) (self.headD 0) :: packed self.tail
  else pack (flags isLeaf false) 0 :: packed self

/-- `decode_compact` before it removes padding: the nibbles, and the flags for a leaf and for an
odd length. -/
def unpack (first : UInt8) (bytes : Bytes) : Nibbles × Bool × Bool :=
  let isLeaf := first &&& 0x20 ≠ 0
  let oddLen := first &&& 0x10 ≠ 0
  ((if oddLen then [low first] else []) ++ fromBytes bytes, isLeaf, oddLen)

/-- An even number of nibbles loses a zero at its end. -/
def decodeCompact : Bytes → Call TrieError (Nibbles × Bool)
  | [] => Call.fail .invalidNibbles
  | first :: bytes =>
    let (nibbles, isLeaf, oddLen) := unpack first bytes
    .ok (if !oddLen && nibbles.getLast? == some 0 then nibbles.dropLast else nibbles, isLeaf)

theorem commonPrefixLen_eq (s : Nibbles) :
    s.commonPrefixLen other = Radix.commonLength s other := by
  unfold commonPrefixLen
  fun_induction Radix.commonLength s other with
  | case1 a as bs ih => simp [ih]
  | case2 a as b bs h => simp [h]
  | case3 as bs h =>
    cases as with
    | nil => rfl
    | cons a as =>
      cases bs with
      | nil => rfl
      | cons b bs => exact (h a as b bs rfl rfl).elim

theorem commonPrefixLen_eq_length {s other : Nibbles} :
    s.commonPrefixLen other = s.length ↔ s <+: other := by
  rw [commonPrefixLen_eq, Radix.commonLength_eq_length]

@[simp] theorem high_pack : high (pack a b) = a := by
  apply Fin.ext
  simp only [high, pack, UInt8.toNat_ofNat']
  omega

@[simp] theorem low_pack : low (pack a b) = b := by
  apply Fin.ext
  simp only [low, pack, UInt8.toNat_ofNat']
  omega

theorem pack_high_low : pack (high byte) (low byte) = byte := by
  apply UInt8.toNat_inj.mp
  have := byte.toNat_lt
  simp only [pack, high, low, UInt8.toNat_ofNat']
  omega

@[simp] theorem fromBytes_nil : fromBytes [] = [] := rfl

@[simp] theorem fromBytes_cons :
    fromBytes (byte :: bytes) = high byte :: low byte :: fromBytes bytes := rfl

@[simp] theorem length_fromBytes : (fromBytes bytes).length = 2 * bytes.length := by
  induction bytes with
  | nil => rfl
  | cons byte bytes ih => simp [ih, mul_add]

theorem packed_fromBytes (bytes : Bytes) : packed (fromBytes bytes) = bytes := by
  induction bytes with
  | nil => rfl
  | cons byte bytes ih => simp [packed, ih, pack_high_low]

theorem fromBytes_injective : Function.Injective fromBytes := fun bytes bytes' h => by
  rw [← packed_fromBytes bytes, h, packed_fromBytes]

theorem fromBytes_packed (h : nibs.length % 2 = 0) : fromBytes (packed nibs) = nibs := by
  fun_induction packed nibs with
  | case1 a b rest ih =>
    have hrest : rest.length % 2 = 0 := by
      simp only [length_cons] at h
      omega
    simp [ih hrest]
  | case2 a => simp at h
  | case3 => rfl

def trim (nibbles : Nibbles) : Nibbles :=
  if nibbles.length % 2 = 0 ∧ nibbles.getLast? = some 0 then nibbles.dropLast else nibbles

theorem eq_of_trim_ne {nibs : Nibbles} (h : nibs.trim ≠ nibs) :
    nibs.length % 2 = 0 ∧ nibs = nibs.trim ++ [0] := by
  unfold trim at h ⊢
  split at h
  · rename_i htrim
    rw [if_pos htrim]
    exact ⟨htrim.1, (dropLast_append_getLast? 0 htrim.2).symm⟩
  · exact (h rfl).elim

theorem trim_eq_self_iff (nibs : Nibbles) :
    nibs.trim = nibs ↔ ¬ (nibs.length % 2 = 0 ∧ nibs.getLast? = some 0) := by
  unfold trim
  split
  · rename_i htrim
    refine iff_of_false ?_ (not_not_intro htrim)
    -- what is cut off is missing from the length
    intro hself
    have hlen := congrArg length hself
    have hne : nibs ≠ [] := by
      rintro rfl
      cases htrim.2
    have hpos := length_pos_of_ne_nil hne
    rw [length_dropLast] at hlen
    omega
  · rename_i htrim
    exact iff_of_true rfl htrim

theorem length_trim_le (nibs : Nibbles) : nibs.trim.length ≤ nibs.length := by
  unfold trim
  split
  · rw [length_dropLast]
    exact Nat.sub_le _ _
  · exact le_refl _

theorem trim_ne_nil {nibs : Nibbles} (h : nibs ≠ []) : nibs.trim ≠ [] := by
  unfold trim
  split
  · have hpos := length_pos_of_ne_nil h
    apply ne_nil_of_length_pos
    rw [length_dropLast]
    omega
  · exact h

theorem unpack_even :
    unpack (pack (flags isLeaf false) 0) bytes = (fromBytes bytes, isLeaf, false) := by
  cases isLeaf <;> rfl

theorem unpack_odd :
    unpack (pack (flags isLeaf true) first) bytes = (first :: fromBytes bytes, isLeaf, true) := by
  have hfla : ∀ isLeaf : Bool, ∀ first : Nibble,
      (pack (flags isLeaf true) first &&& 0x20 ≠ 0 ↔ isLeaf = true) ∧
        pack (flags isLeaf true) first &&& 0x10 ≠ 0 := by decide
  obtain ⟨hleaf, hodd⟩ := hfla isLeaf first
  simp [unpack, hleaf, hodd]

theorem exists_unpack_eq :
    ∃ first bytes, nibs.encodeCompact isLeaf = first :: bytes ∧
      unpack first bytes = (nibs, isLeaf, decide (nibs.length % 2 ≠ 0)) := by
  unfold encodeCompact
  split
  · rename_i hodd
    refine ⟨_, _, rfl, ?_⟩
    cases nibs with
    | nil => simp at hodd
    | cons first rest =>
      have heven : rest.length % 2 = 0 := by
        rw [length_cons] at hodd
        omega
      simpa [unpack_odd, fromBytes_packed heven] using hodd
  · refine ⟨_, _, rfl, ?_⟩
    have heven : nibs.length % 2 = 0 := by omega
    simp [unpack_even, fromBytes_packed heven, heven]

theorem encodeCompact_inj {k k' : Nibbles}
    (h : k.encodeCompact isLeaf = k'.encodeCompact isLeaf') : k = k' ∧ isLeaf = isLeaf' := by
  obtain ⟨first, bytes, hk, hu⟩ := exists_unpack_eq
  obtain ⟨first', bytes', hk', hu'⟩ := exists_unpack_eq
  rw [hk, hk', cons.injEq] at h
  rw [h.1, h.2, hu', Prod.mk.injEq, Prod.mk.injEq] at hu
  exact ⟨hu.1.symm, hu.2.1.symm⟩

theorem decodeCompact_encodeCompact (nibs : Nibbles) :
    decodeCompact (nibs.encodeCompact isLeaf) = .ok (nibs.trim, isLeaf) := by
  obtain ⟨first, bytes, heq, hu⟩ := exists_unpack_eq
  rw [heq, decodeCompact, hu, trim]
  simp

/-- A path is read back from its compact form unless it has an even length and ends with zero. -/
theorem compact_readBack_iff (nibs : Nibbles) (isLeaf : Bool) :
    decodeCompact (nibs.encodeCompact isLeaf) = .ok (nibs, isLeaf) ↔
      ¬ (nibs.length % 2 = 0 ∧ nibs.getLast? = some 0) := by
  rw [decodeCompact_encodeCompact, Except.ok.injEq, Prod.mk.injEq, and_iff_left rfl]
  exact trim_eq_self_iff nibs

/-- The path 1, 0 comes back as 1. -/
theorem compact_loses_zero :
    decodeCompact (encodeCompact [1, 0] true) = .ok ([1], true) ∧
      decodeCompact (encodeCompact [1, 0] true) ≠ .ok ([1, 0], true) := by
  decide

theorem length_unpack (first : UInt8) (bytes : Bytes) :
    (unpack first bytes).1.length % 2 = if (unpack first bytes).2.2 then 1 else 0 := by
  by_cases hodd : first &&& 0x10 = 0
  · simp [unpack, hodd]
  · simp [unpack, hodd, Nat.add_mod]

theorem trim_of_decodeCompact {bytes : Bytes} {nibs : Nibbles} {isLeaf : Bool}
    (h : decodeCompact bytes = .ok (nibs, isLeaf)) : nibs.trim = nibs := by
  cases bytes with
  | nil => cases h
  | cons first bytes =>
    have hlen := length_unpack first bytes
    rw [decodeCompact] at h
    simp only [Except.ok.injEq] at h
    obtain ⟨rfl, -⟩ := h
    generalize unpack first bytes = unpacked at hlen ⊢
    obtain ⟨nibs, isLeaf, oddLen⟩ := unpacked
    apply if_neg
    rintro ⟨heven, hzero⟩
    cases oddLen with
    | true =>
      simp only [Bool.not_true, Bool.false_and, Bool.false_eq_true, if_false, if_true] at hlen heven
      omega
    | false =>
      by_cases hlast : nibs.getLast? = some 0
      · -- the zero is gone, and with it the even length
        have hne : nibs ≠ [] := by
          rintro rfl
          cases hlast
        have hpos := length_pos_of_ne_nil hne
        simp only [hlast, Bool.not_false, beq_self_eq_true, Bool.and_true, if_true,
          length_dropLast] at heven
        simp only [Bool.false_eq_true, if_false] at hlen
        omega
      · simp [hlast] at hzero

end Nibbles

end EthereumRust.Trie
