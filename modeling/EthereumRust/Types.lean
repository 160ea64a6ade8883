import EthereumRust.Lib.Bytes
import Mathlib.Data.Finite.Vector
import Mathlib.Data.Finmap

/-!
# Words, hashes and addresses (`crates/types`)

`U256` is the 256-bit unsigned integer of `primitive-types`: `overflowing_*` wraps, the plain
operators panic when the result does not fit, and so do the casts to a machine word. Shifting by
256 or more gives zero. Hashes and addresses are byte strings of fixed length.
-/

namespace EthereumRust

open Rust List Finmap BitVec Multiset

abbrev U256 := BitVec 256

abbrev H160 := List.Vector UInt8 20

abbrev H256 := List.Vector UInt8 32

abbrev Address := H160

instance instFiniteUInt8 : Finite UInt8 :=
  Finite.of_injective UInt8.toFin fun _ _ => UInt8.toFin_inj.mp

abbrev Bytes := List UInt8

def asBytes (s : String) : Bytes := s.toUTF8.data.toList

abbrev Bloom := List.Vector UInt8 256

abbrev Pubkey := List.Vector UInt8 48

/-- `HashMap<K, V>`: a finite map, with no order on its entries. -/
abbrev HashMap (K V : Type) := Finmap fun _ : K => V

namespace HashMap

variable {K V : Type} [DecidableEq K] {m : HashMap K V}

theorem lookup_insert_ite (k' : K) :
    (m.insert k v).lookup k' = if k' = k then some v else m.lookup k' := by
  split_ifs with h
  · rw [h, lookup_insert]
  · exact lookup_insert_of_ne _ h

theorem getD_insert (m : HashMap K V) :
    ((m.insert k v).lookup k').getD d = if k' = k then v else (m.lookup k').getD d := by
  rw [lookup_insert_ite]
  split_ifs
  · exact Option.getD_some
  · rfl

theorem erase_of_notMem (h : k ∉ m) : m.erase k = m := by
  refine ext_lookup fun k' => ?_
  by_cases hk : k' = k
  · rw [hk, lookup_erase, lookup_eq_none.mpr h]
  · exact lookup_erase_ne hk

theorem erase_insert (h : k ∉ m) (v : V) : (m.insert k v).erase k = m := by
  refine ext_lookup fun k' => ?_
  by_cases hk : k' = k
  · rw [hk, lookup_erase, lookup_eq_none.mpr h]
  · rw [lookup_erase_ne hk, lookup_insert_of_ne _ hk]

theorem keys_insert : (m.insert k v).keys = insert k m.keys := by
  ext k'
  rw [Finmap.mem_keys, mem_insert, Finset.mem_insert, Finmap.mem_keys]

theorem card_keys_insert_le : (m.insert k v).keys.card ≤ m.keys.card + 1 := by
  rw [keys_insert]
  exact Finset.card_insert_le k m.keys

section
variable {α : Type} {key : α → K} {value : α → V} {l : List α}

theorem of_lookup_foldl_insert
    (h : (l.foldl (fun m a => m.insert (key a) (value a)) m).lookup k = some v) :
    (∃ a ∈ l, key a = k ∧ value a = v) ∨ m.lookup k = some v := by
  induction l generalizing m with
  | nil => exact .inr h
  | cons a l ih =>
    rcases ih h with ⟨b, hb, hent⟩ | h
    · exact .inl ⟨b, mem_cons_of_mem a hb, hent⟩
    · rw [lookup_insert_ite] at h
      split_ifs at h with hk
      · exact .inl ⟨a, mem_cons_self, hk.symm, Option.some.inj h⟩
      · exact .inr h

theorem mem_foldl_insert (h : k ∈ m ∨ ∃ a ∈ l, key a = k) :
    k ∈ l.foldl (fun m a => m.insert (key a) (value a)) m := by
  induction l generalizing m with
  | nil =>
    obtain h | ⟨a, ha, -⟩ := h
    · exact h
    · cases ha
  | cons a l ih =>
    refine ih ?_
    rw [mem_insert]
    rcases h with h | ⟨b, hb, rfl⟩
    · exact .inl (.inr h)
    · rcases mem_cons.mp hb with rfl | hb
      · exact .inl (.inl rfl)
      · exact .inr ⟨b, hb, rfl⟩

end

def retain (p : K → V → Bool) (m : HashMap K V) : HashMap K V where
  entries := m.entries.filter fun entry => p entry.1 entry.2
  nodupKeys := Multiset.nodup_keys.mp <|
    Multiset.nodup_of_le (Multiset.map_le_map (Multiset.filter_le _ _))
      (Multiset.nodup_keys.mpr m.nodupKeys)

def mapValues {W : Type} (f : V → W) (m : HashMap K V) : HashMap K W where
  entries := m.entries.map fun entry => ⟨entry.1, f entry.2⟩
  nodupKeys := by
    rw [← Multiset.nodup_keys, Multiset.keys, Multiset.map_map]
    exact Multiset.nodup_keys.mpr m.nodupKeys

theorem lookup_retain : (m.retain p).lookup k = (m.lookup k).filter (p k) := by
  ext v
  rw [Option.filter_eq_some_iff]
  exact Finmap.lookup_eq_some_iff.trans (mem_filter.trans (and_congr_left' lookup_eq_some_iff.symm))

theorem retain_eq_self (h : ∀ k v, m.lookup k = some v → p k v = true) : m.retain p = m := by
  refine Finmap.ext_lookup fun k => ?_
  rw [lookup_retain]
  cases hk : m.lookup k with
  | none => rfl
  | some v => rw [Option.filter_some, if_pos (h k v hk)]

end HashMap

namespace U256

def MAX : U256 := BitVec.allOnes 256

def asU64 (x : U256) : Checked UInt64 :=
  if x.toNat < wordBound then .ok (.ofNat x.toNat) else .error .cast

def asUsize (x : U256) : Checked Nat :=
  if x.toNat < wordBound then .ok x.toNat else .error .cast

/-- `as_u128`; a `u128` is a number here. -/
def asU128 (x : U256) : Checked Nat := if x.toNat < 2 ^ 128 then .ok x.toNat else .error .cast

def ofU64 (x : UInt64) : U256 := .ofNat 256 x.toNat

def ofUsize (x : Nat) : U256 := .ofNat 256 x

def isZero (x : U256) : Bool := x == 0

def bit (x : U256) (i : Nat) : Bool := x.getLsbD i

def byte (x : U256) (i : Nat) : UInt8 := .ofNat (x.toNat >>> (8 * i))

def bits (x : U256) : Nat := if x.toNat = 0 then 0 else x.toNat.log2 + 1

def sub (a b : U256) : Checked U256 := if b ≤ a then .ok (a - b) else .error .arithmetic

def add (a b : U256) : Checked U256 :=
  if a.toNat + b.toNat < 2 ^ 256 then .ok (a + b) else .error .arithmetic

def mul (a b : U256) : Checked U256 :=
  if a.toNat * b.toNat < 2 ^ 256 then .ok (a * b) else .error .arithmetic

def div (a b : U256) : Checked U256 := if b = 0 then .error .division else .ok (a / b)

def sum (values : List U256) : Checked U256 := values.foldlM add 0

def saturatingAdd (a b : U256) : U256 :=
  if a.toNat + b.toNat < 2 ^ 256 then a + b else MAX

def saturatingSub (a b : U256) : U256 := if b ≤ a then a - b else 0

/-- `base.overflowing_pow(exponent).0`, by squaring along the bits of the exponent. -/
def overflowingPow (base exponent : U256) : U256 :=
  (List.range 256).foldl
    (fun acc i => if exponent.bit (255 - i) then acc * acc * base else acc * acc) 1

def fromBigEndian (bytes : List UInt8) : U256 := .ofNat 256 (ofBigEndian bytes)

theorem toNat_ofNat (h : n < 2 ^ 256) : (BitVec.ofNat 256 n).toNat = n := Nat.mod_eq_of_lt h

theorem toNat_ofU64 : (ofU64 x).toNat = x.toNat := toNat_ofNat (lt_trans x.toNat_lt (by decide))

variable {x : U256}

theorem isZero_iff : x.isZero = true ↔ x.toNat = 0 := by
  rw [isZero, beq_iff_eq]
  exact ⟨congrArg BitVec.toNat, fun h => eq_of_toNat_eq h⟩

theorem asU64_ne_division : x.asU64 ≠ .error .division := by
  unfold asU64
  split <;> simp

theorem add_ne_division : add a b ≠ .error .division := by
  unfold add
  split <;> simp

theorem add_eq_ok : add a b = .ok c ↔ c.toNat = a.toNat + b.toNat := by
  refine ite_ok_eq_ok (fun h => h ▸ c.isLt) fun hlt => ?_
  rw [← toNat_inj, toNat_add, Nat.mod_eq_of_lt hlt, eq_comm]

theorem sub_eq_ok : sub a b = .ok c ↔ c.toNat + b.toNat = a.toNat := by
  refine ite_ok_eq_ok (fun h => le_def.mpr (by omega)) fun hle => ?_
  rw [← toNat_inj, toNat_sub_of_le hle]
  rw [le_def] at hle
  omega

theorem mul_eq_ok : mul a b = .ok c ↔ c.toNat = a.toNat * b.toNat := by
  refine ite_ok_eq_ok (fun h => h ▸ c.isLt) fun hlt => ?_
  rw [← toNat_inj, toNat_mul, Nat.mod_eq_of_lt hlt, eq_comm]

theorem div_eq_ok : div a b = .ok c ↔ b.toNat ≠ 0 ∧ c.toNat = a.toNat / b.toNat := by
  rw [div]
  split_ifs with hzero
  · constructor
    · intro h
      cases h
    · rintro ⟨hb, -⟩
      exact absurd (congrArg BitVec.toNat hzero) hb
  · have hb : b.toNat ≠ 0 := fun h => hzero (eq_of_toNat_eq h)
    rw [Except.ok.injEq, ← toNat_inj, BitVec.toNat_udiv, and_iff_right hb]
    exact eq_comm

variable {l : List U256}

private theorem foldlM_add_eq_ok {acc total : U256} :
    l.foldlM add acc = .ok total ↔ total.toNat = acc.toNat + (l.map BitVec.toNat).sum := by
  induction l generalizing acc with
  | nil =>
    rw [List.map_nil, List.sum_nil, add_zero, BitVec.toNat_inj]
    exact Except.ok.injEq acc total ▸ eq_comm
  | cons x l ih =>
    rw [List.foldlM_cons, Except.bind_eq_ok, List.map_cons, List.sum_cons, ← add_assoc]
    constructor
    · rintro ⟨next, hnext, h⟩
      rw [ih.mp h, add_eq_ok.mp hnext]
    · intro h
      have hlt := total.isLt
      have hnext : add acc x = .ok (acc + x) := if_pos (by omega)
      exact ⟨acc + x, hnext, ih.mpr (by rw [h, add_eq_ok.mp hnext])⟩

theorem sum_eq_ok : sum l = .ok total ↔ total.toNat = (l.map BitVec.toNat).sum := by
  rw [sum, foldlM_add_eq_ok]
  change _ = 0 + _ ↔ _
  rw [zero_add]

theorem le_of_add_eq_error (h : add a b = .error p) : 2 ^ 256 ≤ a.toNat + b.toNat := by
  by_contra hlt
  rw [add, if_pos (not_le.mp hlt)] at h
  cases h

theorem le_of_sum_eq_error (h : sum l = .error p) : 2 ^ 256 ≤ (l.map BitVec.toNat).sum := by
  by_contra hlt
  have hok : sum l = .ok (.ofNat 256 (l.map BitVec.toNat).sum) := by
    rw [sum_eq_ok, BitVec.toNat_ofNat, Nat.mod_eq_of_lt (not_le.mp hlt)]
  rw [hok] at h
  cases h

theorem asUsize_of_lt (h : x.toNat < wordBound) : x.asUsize = .ok x.toNat := if_pos h

theorem asUsize_of_le (h : wordBound ≤ x.toNat) : x.asUsize = .error .cast :=
  if_neg (not_lt.mpr h)

theorem asUsize_eq_ok : x.asUsize = .ok n ↔ n = x.toNat ∧ x.toNat < wordBound := by
  refine ite_ok_eq_ok And.right fun h => ?_
  rw [and_iff_left h, eq_comm]

theorem asU64_of_le (h : wordBound ≤ x.toNat) : x.asU64 = .error .cast := if_neg (not_lt.mpr h)

theorem asU64_of_lt (h : x.toNat < wordBound) : x.asU64 = .ok (.ofNat x.toNat) := if_pos h

theorem asU64_eq_ok {a : UInt64} : x.asU64 = .ok a ↔ a.toNat = x.toNat := by
  refine ite_ok_eq_ok (fun h => h ▸ toNat_lt_wordBound a) fun hlt => ?_
  rw [← UInt64.toNat_inj, toNat_ofNat_of_lt hlt, eq_comm]

end U256

def H256.ofU256 (x : U256) : H256 := ⟨toBigEndian 32 x.toNat, length_toBigEndian ..⟩

def H256.fromSlice (bytes : Bytes) : Checked H256 :=
  if h : bytes.length = 32 then .ok ⟨bytes, h⟩ else .error .assertion

@[simp] theorem H256.fromSlice_toList (hash : H256) : fromSlice hash.toList = .ok hash :=
  dif_pos hash.toList_length

def H256.zero : H256 := ⟨List.replicate 32 0, rfl⟩

def Address.zero : Address := ⟨List.replicate 20 0, rfl⟩

/-- `U256::from(hash.as_bytes())`, for a hash or an address. -/
def U256.ofHash {n : Nat} (hash : List.Vector UInt8 n) : U256 := fromBigEndian hash.toList

def addressFromU256 (value : U256) : Address :=
  ⟨(toBigEndian 32 value.toNat).drop 12, by simp⟩

end EthereumRust
