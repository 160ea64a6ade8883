import Mathlib.Data.List.DropRight
import EthereumRust.Types
import EthereumRust.Lib.Blocks
import EthereumRust.Lib.Call

/-!
# Erasure coding of columns (`crates/das`: `erasure.rs`)

The Reed-Solomon code is that of the `reed-solomon-erasure` crate and is a parameter, with the laws
that a systematic code has. Data is cut into shards that are filled up with zeros; how long it was
is not kept, and to reconstruct it the zeros at the end are removed.
-/

namespace EthereumRust.Das

open Rust List Finmap

inductive DASError where
  | samplingFailed (message : String)
  | reconstructionFailed (message : String)
  | invalidData (message : String)
  | insufficientSamples (got need : Nat)
  | kzgError (message : String)
  | networkError (message : String)
  deriving DecidableEq, Repr

/-- The library; an error is the text it is shown as. -/
class ReedSolomon where
  Code : Type
  new : Nat → Nat → Except String Code
  encode : Code → List Bytes → Except String (List Bytes)
  reconstruct : Code → List Bytes → List Bool → Except String (List Bytes)

def Shards (n size : Nat) (shards : List Bytes) : Prop :=
  shards.length = n ∧ ∀ shard ∈ shards, shard.length = size

theorem shards_replicate : Shards n size (replicate n (replicate size 0)) := by
  refine ⟨length_replicate, fun shard hsha => ?_⟩
  rw [(mem_replicate.mp hsha).2, length_replicate]

theorem Shards.append (h : Shards n size shards)
    (h' : Shards n' size shards') : Shards (n + n') size (shards ++ shards') := by
  refine ⟨by rw [length_append, h.1, h'.1], fun shard hsha => ?_⟩
  rcases mem_append.mp hsha with hsha | hsha
  · exact h.2 shard hsha
  · exact h'.2 shard hsha

/-- A systematic code: encoding keeps the data shards, and all shards are restored from any
`dataShards` of them. -/
class LawfulReedSolomon [ReedSolomon] : Prop where
  dataShards_pos {dataShards parityShards : Nat} {code : ReedSolomon.Code} :
    ReedSolomon.new dataShards parityShards = .ok code → 0 < dataShards
  /-- A shard has a number in the field with 256 elements. -/
  shards_le {dataShards parityShards : Nat} {code : ReedSolomon.Code} :
    ReedSolomon.new dataShards parityShards = .ok code → dataShards + parityShards ≤ 256
  encode {dataShards parityShards size : Nat} {code : ReedSolomon.Code} {data parity : List Bytes} :
    ReedSolomon.new dataShards parityShards = .ok code → 0 < size →
    Shards dataShards size data → Shards parityShards size parity →
    ∃ coded, ReedSolomon.encode code (data ++ parity) = .ok (data ++ coded) ∧
      Shards parityShards size coded
  restore {dataShards parityShards size : Nat} {code : ReedSolomon.Code}
    {shards coded damaged : List Bytes} {present : List Bool} :
    ReedSolomon.new dataShards parityShards = .ok code → 0 < size →
    Shards (dataShards + parityShards) size shards → ReedSolomon.encode code shards = .ok coded →
    Shards (dataShards + parityShards) size damaged → present.length = dataShards + parityShards →
    (∀ i : Nat, present[i]? = some true → damaged[i]? = coded[i]?) →
    dataShards ≤ present.count true → ReedSolomon.reconstruct code damaged present = .ok coded

namespace Repetition

/-- A code with one data shard, for concrete columns. Every parity shard is a copy of the data
shard. -/
scoped instance : ReedSolomon where
  Code := Nat
  new dataShards parityShards :=
    if dataShards = 1 ∧ parityShards < 256 then .ok parityShards
    else .error "Not a repetition code"
  encode parityShards shards :=
    match shards with
    | [] => .error "No shards"
    | shard :: _ => .ok (shard :: List.replicate parityShards shard)
  reconstruct parityShards shards present :=
    match (shards.zip present).find? (·.2) with
    | none => .error "No shard present"
    | some (shard, _) => .ok (shard :: List.replicate parityShards shard)

theorem eq_one_of_new (h : ReedSolomon.new dataShards parityShards = .ok code) :
    dataShards = 1 ∧ code = parityShards ∧ parityShards < 256 := by
  change (if dataShards = 1 ∧ parityShards < 256 then Except.ok parityShards else _) = _ at h
  split_ifs at h with hone
  · exact ⟨hone.1, (Except.ok.inj h).symm, hone.2⟩

scoped instance : LawfulReedSolomon where
  dataShards_pos h := by
    rw [(eq_one_of_new h).1]
    exact Nat.one_pos
  shards_le h := by
    obtain ⟨rfl, -, hlt⟩ := eq_one_of_new h
    omega
  encode h _ hdata _ := by
    obtain ⟨rfl, rfl, -⟩ := eq_one_of_new h
    obtain ⟨shard, rfl⟩ := List.length_eq_one_iff.mp hdata.1
    refine ⟨List.replicate _ shard, rfl, List.length_replicate, fun copy hcopy => ?_⟩
    rw [(List.mem_replicate.mp hcopy).2]
    exact hdata.2 shard List.mem_cons_self
  restore {_ _ _ _ shards _ damaged present} h _ _ hcoded hdamaged hpresent hagree hcount := by
    obtain ⟨rfl, rfl, -⟩ := eq_one_of_new h
    cases shards with
    | nil => cases hcoded
    | cons shard rest =>
      cases hcoded
      have hlen : present.length = damaged.length := hpresent.trans hdamaged.1.symm
      change (match (damaged.zip present).find? (·.2) with | none => _ | some (copy, _) => _) = _
      cases hfind : (damaged.zip present).find? (·.2) with
      | none =>
        obtain ⟨i, hi⟩ := List.mem_iff_getElem?.mp (List.count_pos_iff.mp hcount)
        have hlt := (List.getElem?_eq_some_iff.mp hi).1
        have hzip : (damaged.zip present)[i]? = some (damaged[i], true) :=
          List.getElem?_zip_eq_some.mpr ⟨List.getElem?_eq_getElem (hlen ▸ hlt), hi⟩
        exact absurd rfl (List.find?_eq_none.mp hfind _ (List.mem_of_getElem? hzip))
      | some found =>
        obtain ⟨i, hi⟩ := List.mem_iff_getElem?.mp (List.mem_of_find?_eq_some hfind)
        obtain ⟨hi, hipresent⟩ := List.getElem?_zip_eq_some.mp hi
        rw [List.find?_some hfind] at hipresent
        have hmem := List.mem_of_getElem? ((hagree i hipresent).symm.trans hi)
        have hcopy : found.1 = shard := by
          rcases List.mem_cons.mp hmem with h | h
          · exact h
          · exact (List.mem_replicate.mp h).2
        rw [← hcopy]

end Repetition

structure CodedData where
  columns : List Bytes
  dataShards : Nat
  parityShards : Nat
  deriving DecidableEq

structure ErasureCoding [ReedSolomon] where
  reedSolomon : ReedSolomon.Code
  dataShards : Nat
  parityShards : Nat

namespace ErasureCoding

section
variable [ReedSolomon]

def new (dataShards parityShards : Nat) : Call DASError ErasureCoding :=
  match ReedSolomon.new dataShards parityShards with
  | .error e => Call.fail (.invalidData s!"Failed to create Reed-Solomon: {e}")
  | .ok reedSolomon => .ok { reedSolomon, dataShards, parityShards }

def dataShard (data : Bytes) (shardSize i : Nat) : Checked Bytes := do
  let start := i * shardSize
  let stop := min ((i + 1) * shardSize) data.length
  let shard ← if start < data.length then slice data start stop else pure []
  return resize shard shardSize

def encode (self : ErasureCoding) (data : Bytes) : Call DASError CodedData := do
  let rounded ← subUsize (data.length + self.dataShards) 1
  let shardSize ← divUsize rounded self.dataShards
  let dataShards ← ((List.range self.dataShards).mapM (dataShard data shardSize) : Checked _)
  let shards := dataShards ++ List.replicate self.parityShards (List.replicate shardSize 0)
  match ReedSolomon.encode self.reedSolomon shards with
  | .error e => Call.fail (.invalidData s!"Encoding failed: {e}")
  | .ok columns =>
    return { columns, dataShards := self.dataShards, parityShards := self.parityShards }

def placeColumn (columns : HashMap Nat Bytes) (shardSize i : Nat) : Call DASError (Bytes × Bool) :=
  match columns.lookup i with
  | some column =>
    if column.length ≠ shardSize then
      Call.fail (.invalidData
        s!"Inconsistent shard size: expected {shardSize}, got {column.length}")
    else .ok (column, true)
  | none => .ok (List.replicate shardSize 0, false)

def reconstruct (self : ErasureCoding) (order : List Nat) (columns : HashMap Nat Bytes) :
    Call DASError Bytes := do
  if columns.keys.card < self.dataShards then
    Call.fail (.insufficientSamples columns.keys.card self.dataShards)
  else
    match order.findSome? fun i => columns.lookup i with
    | none => Call.fail (.invalidData "No columns available")
    | some first =>
      let placed ← (List.range (self.dataShards + self.parityShards)).mapM
        (placeColumn columns first.length)
      match
        ReedSolomon.reconstruct self.reedSolomon (placed.map Prod.fst) (placed.map Prod.snd) with
      | .error e =>
        Call.fail (.reconstructionFailed s!"Reed-Solomon reconstruction failed: {e}")
      | .ok shards => return (shards.take self.dataShards).flatten.rdropWhile (· == 0)

end

theorem dataShard_eq :
    dataShard data shardSize i = .ok (resize (data.drop (i * shardSize)) shardSize) := by
  have hsucc : (i + 1) * shardSize = i * shardSize + shardSize := Nat.succ_mul ..
  by_cases hst : i * shardSize < data.length
  · have hsl : slice data (i * shardSize) (min ((i + 1) * shardSize) data.length) =
        .ok ((data.drop (i * shardSize)).take
          (min ((i + 1) * shardSize) data.length - i * shardSize)) :=
      slice_eq_ok.mpr ⟨rfl, by omega, by omega⟩
    simp only [dataShard, if_pos hst, hsl]
    refine congrArg Except.ok (resize_take ?_ ?_)
    · rw [length_drop]
      omega
    · omega
  · have hnil : data.drop (i * shardSize) = [] := drop_eq_nil_of_le (by omega)
    rw [hnil]
    simp only [dataShard, if_neg hst]
    rfl

def shardSize (data : Bytes) (n : Nat) : Nat := (data.length + n - 1) / n

theorem le_mul_shardSize (data : Bytes) (hn : 0 < n) : data.length ≤ n * shardSize data n := by
  have hdiv := Nat.div_add_mod (data.length + n - 1) n
  have hmod := Nat.mod_lt (data.length + n - 1) hn
  rw [shardSize]
  omega

def blocks (data : Bytes) (n size : Nat) : List Bytes :=
  (List.range n).map (Blocks.chunk (data ++ List.replicate (n * size - data.length) 0) size)

theorem mapM_dataShard (h : data.length ≤ n * size) :
    (range n).mapM (dataShard data size) = .ok (blocks data n size) := by
  refine Checked.mapM_eq_ok fun i hi => ?_
  have hle : i * size + size ≤ n * size := by
    rw [← Nat.succ_mul]
    exact Nat.mul_le_mul_right size (mem_range.mp hi)
  rw [dataShard_eq, resize_drop (k := n * size - data.length) (by omega), Blocks.chunk]

theorem shards_blocks (h : data.length ≤ n * size) : Shards n size (blocks data n size) := by
  refine ⟨by rw [blocks, length_map, length_range], fun shard hsha => ?_⟩
  obtain ⟨i, hi, rfl⟩ := mem_map.mp hsha
  have hle : i * size + size ≤ n * size := by
    rw [← Nat.succ_mul]
    exact Nat.mul_le_mul_right size (mem_range.mp hi)
  simp only [Blocks.chunk, length_take, length_drop, length_append, length_replicate]
  omega

theorem flatten_blocks (h : data.length ≤ n * size) :
    (blocks data n size).flatten = data ++ replicate (n * size - data.length) 0 := by
  rw [blocks, ← flatMap_def, Blocks.flatMap_chunk]
  refine take_of_length_le ?_
  rw [length_append, length_replicate]
  omega

theorem rdropWhile_padded (data : Bytes) :
    (data ++ replicate n 0).rdropWhile (· == 0) = data.rdropWhile (· == 0) := by
  induction n with
  | zero => rw [replicate_zero, append_nil]
  | succ n ih =>
    rw [replicate_succ', ← append_assoc, rdropWhile_concat_pos _ _ _ rfl, ih]

section
variable [ReedSolomon] {dataShards parityShards : Nat} {t : ErasureCoding} {data : Bytes}

theorem eq_of_new (hnew : new dataShards parityShards = .ok t) :
    ∃ code, ReedSolomon.new dataShards parityShards = .ok code ∧
      t = { reedSolomon := code, dataShards, parityShards } := by
  rw [new] at hnew
  split at hnew
  · cases hnew
  · next code hcode =>
    cases hnew
    exact ⟨code, hcode, rfl⟩

theorem shards_of_new (hnew : new dataShards parityShards = .ok t) :
    t.dataShards = dataShards ∧ t.parityShards = parityShards := by
  obtain ⟨code, -, rfl⟩ := eq_of_new hnew
  exact ⟨rfl, rfl⟩

structure Encoded (coder : ErasureCoding) (data : Bytes) (size : Nat) (parity : List Bytes) :
    Prop where
  size_pos : 0 < size
  fits : data.length ≤ coder.dataShards * size
  encode_eq : ReedSolomon.encode coder.reedSolomon (blocks data coder.dataShards size ++
    List.replicate coder.parityShards (List.replicate size 0)) =
      .ok (blocks data coder.dataShards size ++ parity)
  parity : Shards coder.parityShards size parity

variable [LawfulReedSolomon]

theorem encode_spec (hnew : new dataShards parityShards = .ok t) (hdata : data ≠ []) :
    ∃ parity, Encoded t data (shardSize data dataShards) parity ∧
      t.encode data = .ok ⟨blocks data dataShards (shardSize data dataShards) ++ parity,
        dataShards, parityShards⟩ := by
  obtain ⟨code, hcode, rfl⟩ := eq_of_new hnew
  have hpos : 0 < dataShards := LawfulReedSolomon.dataShards_pos hcode
  have hlen : 0 < data.length := length_pos_iff.mpr hdata
  have hsize : 0 < shardSize data dataShards := Nat.div_pos (by omega) hpos
  have hfits := le_mul_shardSize data hpos
  obtain ⟨parity, henc, hpar⟩ :=
    LawfulReedSolomon.encode hcode hsize (shards_blocks hfits) (shards_replicate ..)
  refine ⟨parity, ⟨hsize, hfits, henc, hpar⟩, ?_⟩
  have hsub : subUsize (data.length + dataShards) 1 = .ok (data.length + dataShards - 1) :=
    subUsize_of_le (by omega)
  have hdiv : divUsize (data.length + dataShards - 1) dataShards =
      .ok (shardSize data dataShards) := if_neg (ne_of_gt hpos)
  simp only [encode, hsub, hdiv, mapM_dataShard hfits, henc, Call.liftM_ok, Call.ok_bind]
  rfl

/-- The columns at hand are columns of the code word, each at its own index. -/
def SomeColumns (columns : HashMap Nat Bytes) (coded : List Bytes) : Prop :=
  ∀ i column, columns.lookup i = some column → coded[i]? = some column

namespace SomeColumns
omit [ReedSolomon] [LawfulReedSolomon]
variable {n size : Nat}

section
variable (h : SomeColumns cols coded)
include h

theorem length_eq (hcod : Shards n size coded) (hi : cols.lookup i = some col) :
    col.length = size :=
  hcod.2 col (mem_of_getElem? (h i col hi))

theorem exists_first (hcod : Shards n size coded) (hpos : 0 < cols.keys.card) {order : List Nat}
    (hord : ∀ i, i ∈ cols → i ∈ order) :
    ∃ first, order.findSome? (fun i => cols.lookup i) = some first ∧ first.length = size := by
  obtain ⟨i, hi⟩ := Finset.card_pos.mp hpos
  have hmem : i ∈ cols := mem_keys.mp hi
  cases hfst : order.findSome? (fun i => cols.lookup i) with
  | none =>
    have hnone := findSome?_eq_none_iff.mp hfst i (hord i hmem)
    exact absurd hmem (lookup_eq_none.mp hnone)
  | some first =>
    obtain ⟨j, -, hj⟩ := exists_of_findSome?_eq_some hfst
    exact ⟨first, rfl, h.length_eq hcod hj⟩

theorem mapM_placeColumn (hcod : Shards n size coded) :
    (range n).mapM (placeColumn cols size) = .ok ((range n).map fun i =>
      ((cols.lookup i).getD (replicate size 0), (cols.lookup i).isSome)) := by
  refine Call.mapM_eq_ok fun i _ => ?_
  rw [placeColumn]
  cases hi : cols.lookup i with
  | none => rfl
  | some col =>
    simp only [h.length_eq hcod hi, ne_eq]
    rfl

theorem card_le_count (hcod : Shards n size coded) :
    cols.keys.card ≤ ((List.range n).map fun i => (cols.lookup i).isSome).count true := by
  have hsub : cols.keys ⊆
      ((List.range n).filter fun i => (cols.lookup i).isSome).toFinset := by
    intro i hi
    obtain ⟨col, hcol⟩ := mem_iff.mp (mem_keys.mp hi)
    have hlt := (List.getElem?_eq_some_iff.mp (h i col hcol)).1
    rw [mem_toFinset, mem_filter, mem_range, hcol]
    exact ⟨hcod.1 ▸ hlt, rfl⟩
  calc cols.keys.card
      ≤ ((List.range n).filter fun i => (cols.lookup i).isSome).length :=
        (Finset.card_le_card hsub).trans (toFinset_card_le _)
    _ = ((List.range n).map fun i => (cols.lookup i).isSome).count true := by
      rw [List.count, countP_map, countP_eq_length_filter]
      congr 2
      funext i
      simp

end

end SomeColumns

/-- Enough columns give the data back, without the zeros at its end. -/
theorem reconstruct_spec (hnew : new dataShards parityShards = .ok t) {parity : List Bytes}
    (h : Encoded t data size parity) {cols : HashMap Nat Bytes}
    (hcols : SomeColumns cols (blocks data dataShards size ++ parity))
    (hcard : dataShards ≤ cols.keys.card) {order : List Nat} (hord : ∀ i, i ∈ cols → i ∈ order) :
    t.reconstruct order cols = .ok (data.rdropWhile (· == 0)) := by
  obtain ⟨code, hcode, rfl⟩ := eq_of_new hnew
  have hcod := (shards_blocks h.fits).append h.parity
  obtain ⟨first, hfst, hsize⟩ := hcols.exists_first hcod
    (lt_of_lt_of_le (LawfulReedSolomon.dataShards_pos hcode) hcard) hord
  have hres : ReedSolomon.reconstruct code
      ((List.range (dataShards + parityShards)).map fun i =>
        (cols.lookup i).getD (List.replicate size 0))
      ((List.range (dataShards + parityShards)).map fun i => (cols.lookup i).isSome) =
        .ok (blocks data dataShards size ++ parity) := by
    refine LawfulReedSolomon.restore hcode h.size_pos
      ((shards_blocks h.fits).append (shards_replicate ..)) h.encode_eq ?_ ?_ ?_ ?_
    · refine ⟨by simp, fun shard hsha => ?_⟩
      obtain ⟨i, -, rfl⟩ := mem_map.mp hsha
      cases hi : cols.lookup i with
      | none => exact length_replicate
      | some col => exact hcols.length_eq hcod hi
    · simp
    · intro i hi
      rw [getElem?_map, Option.map_eq_some_iff] at hi
      obtain ⟨j, hj, hsome⟩ := hi
      obtain ⟨hlt, hij⟩ := List.getElem?_eq_some_iff.mp hj
      rw [getElem_range] at hij
      subst hij
      obtain ⟨col, hcol⟩ := Option.isSome_iff_exists.mp hsome
      rw [getElem?_map, hj, Option.map_some, hcol, Option.getD_some, hcols i col hcol]
    · exact hcard.trans (hcols.card_le_count hcod)
  rw [reconstruct, if_neg (not_lt.mpr hcard), hfst]
  simp only [hsize, hcols.mapM_placeColumn hcod, Call.ok_bind, map_map, Function.comp_def, hres]
  rw [take_left' (shards_blocks h.fits).1, flatten_blocks h.fits, rdropWhile_padded]
  rfl

/-- What `encode` returns can be reconstructed from any `dataShards` columns or more, if and only if
the data does not end with a zero byte. -/
theorem reconstruct_encode_iff (hnew : new dataShards parityShards = .ok t) (hdata : data ≠ []) :
    ∃ coded, t.encode data = .ok coded ∧
      ∀ (cols : HashMap Nat Bytes) (order : List Nat), SomeColumns cols coded.columns →
        dataShards ≤ cols.keys.card → (∀ i, i ∈ order ↔ i ∈ cols) →
        (t.reconstruct order cols = .ok data ↔ data.getLast hdata ≠ 0) := by
  obtain ⟨parity, h, henc⟩ := encode_spec hnew hdata
  refine ⟨_, henc, fun cols order hcols hcard hord => ?_⟩
  rw [reconstruct_spec hnew h hcols hcard fun i => (hord i).mpr]
  simp [hdata]

end

section
open Repetition

theorem reconstruct_encode_iff_sample : ∃ coder coded, new 1 2 = .ok coder ∧
    coder.encode [7, 1] = .ok coded ∧ coded.columns = [[7, 1], [7, 1], [7, 1]] ∧
    coder.reconstruct [2] (insert 2 [7, 1] ∅) = .ok [7, 1] := by
  have hnew : new 1 2 = .ok _ := rfl
  obtain ⟨coded, henc, hiff⟩ := reconstruct_encode_iff hnew (cons_ne_nil 7 [1])
  obtain rfl := Except.ok.inj (henc.symm.trans rfl)
  refine ⟨_, _, hnew, henc, rfl, (hiff _ _ ?_ ?_ ?_).mpr (by decide)⟩
  · intro i col hcol
    rw [HashMap.lookup_insert_ite] at hcol
    split_ifs at hcol with hi
    · rw [hi]
      exact hcol
    · cases hcol
  · decide
  · simp [mem_insert, notMem_empty]

/-- All columns are there, and the zero at the end of the data is taken for padding. -/
theorem reconstruct_loses_zero : ∃ coder coded, new 1 1 = .ok coder ∧
    coder.encode [1, 0] = .ok coded ∧ coded.columns = [[1, 0], [1, 0]] ∧
    coder.reconstruct [0, 1] (insert 1 [1, 0] (insert 0 [1, 0] ∅)) = .ok [1] :=
  ⟨_, _, rfl, rfl, rfl, by decide +kernel⟩

end

end ErasureCoding

end EthereumRust.Das
