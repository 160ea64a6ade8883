import EthereumRust.Das.Erasure
import EthereumRust.Lib.Batches

/-!
# PeerDAS (`crates/das`: `peer_das.rs`, `reconstruction.rs`)

Columns are stored by their number and block root. The collector looks for the data columns only, so
the redundancy columns that are stored never help.
-/

namespace EthereumRust.Das

open Rust List

structure DASConfig where
  dataColumns : Nat
  redundancyColumns : Nat
  deriving DecidableEq

def DASConfig.default : DASConfig where
  dataColumns := 128
  redundancyColumns := 128

inductive DASStatus where
  | idle
  | available
  | notAvailable
  | reconstructing
  deriving DecidableEq, Repr

structure ColumnId where
  index : UInt64
  blockRoot : H256
  deriving DecidableEq

structure DataColumn where
  index : UInt64
  column : Bytes
  deriving DecidableEq

def numberColumns (columns : List Bytes) : List DataColumn :=
  columns.mapIdx fun index column => { index := .ofNat index, column }

def DataColumn.verify (_ : DataColumn) : Call DASError Bool := .ok true

structure DataReconstructor [ReedSolomon] where
  dataColumns : Nat
  erasureCoder : ErasureCoding

namespace DataReconstructor
variable [ReedSolomon]

def new (dataColumns : Nat) : Checked DataReconstructor :=
  match ErasureCoding.new dataColumns dataColumns with
  | .ok erasureCoder => .ok { dataColumns, erasureCoder }
  | .error _ => .error .unwrap

def columnData (columns : List DataColumn) : HashMap Nat Bytes :=
  (Batches.sortByKey (fun column : DataColumn => column.index.toNat) columns).foldl
    (fun data column => data.insert column.index.toNat column.column) ∅

def reconstruct (self : DataReconstructor) (order : List Nat) (columns : List DataColumn) :
    Call DASError Bytes :=
  if columns.length < self.dataColumns then
    Call.fail (.insufficientSamples columns.length self.dataColumns)
  else self.erasureCoder.reconstruct order (columnData columns)

end DataReconstructor

structure PeerDAS [ReedSolomon] where
  config : DASConfig
  status : DASStatus
  localColumns : HashMap ColumnId DataColumn
  reconstructor : DataReconstructor
  erasureCoder : ErasureCoding

namespace PeerDAS

section
variable [ReedSolomon]

def new (setup : Except String Unit) (config : DASConfig) : Call DASError PeerDAS := do
  match setup with
  | .error e => Call.fail (.kzgError e)
  | .ok _ =>
    let reconstructor ← DataReconstructor.new config.dataColumns
    let erasureCoder ← ErasureCoding.new config.dataColumns config.redundancyColumns
    return { config, status := .idle, localColumns := ∅, reconstructor, erasureCoder }

def storeColumn (self : PeerDAS) (columnId : ColumnId) (column : DataColumn) :
    Call DASError PeerDAS := do
  let verified ← column.verify
  if !verified then Call.fail (.invalidData "Column verification failed")
  else return { self with localColumns := self.localColumns.insert columnId column }

def collectAvailableColumns (self : PeerDAS) (blockRoot : H256) : List DataColumn :=
  (List.range self.config.dataColumns).filterMap fun i =>
    self.localColumns.lookup { index := .ofNat i, blockRoot }

/-- `reconstruct_data`: what is returned, and the node afterwards. The order is that of the columns
in the map that the code is given. -/
def reconstructData (self : PeerDAS) (order : List Nat) (blockRoot : H256) :
    Call DASError Bytes × PeerDAS :=
  let self := { self with status := .reconstructing }
  let columns := self.collectAvailableColumns blockRoot
  if columns.length < self.config.dataColumns then
    (Call.fail (.insufficientSamples columns.length self.config.dataColumns), self)
  else
    match self.reconstructor.reconstruct order columns with
    | .ok data => (.ok data, { self with status := .available })
    | .error e => (.error e, self)

def extendData (self : PeerDAS) (data : Bytes) : Call DASError (List DataColumn) := do
  let extended ← self.erasureCoder.encode data
  return numberColumns extended.columns

def storeColumns (self : PeerDAS) (blockRoot : H256) (columns : List DataColumn) :
    Call DASError PeerDAS :=
  columns.foldlM (fun self column =>
    self.storeColumn { index := column.index, blockRoot } column) self

end

end PeerDAS

theorem numberColumns_getElem? (i : Nat) :
    (numberColumns coded)[i]? = coded[i]?.map fun column => { index := .ofNat i, column } := by
  rw [numberColumns, getElem?_mapIdx]

theorem getElem?_of_mem_numberColumns {coded : List Bytes} (hcod : coded.length ≤ 256)
    (h : column ∈ numberColumns coded) : coded[column.index.toNat]? = some column.column := by
  obtain ⟨i, hi⟩ := mem_iff_getElem?.mp h
  rw [numberColumns_getElem?, Option.map_eq_some_iff] at hi
  obtain ⟨bytes, hbs, rfl⟩ := hi
  have hlt := (List.getElem?_eq_some_iff.mp hbs).1
  rw [UInt64.toNat_ofNat_of_lt' (show i < 2 ^ 64 by omega), hbs]

theorem eq_of_index_eq (hcod : coded.length ≤ 256) (h : col ∈ numberColumns coded)
    (h' : col' ∈ numberColumns coded) (hidx : col.index = col'.index) : col = col' := by
  have hcol := getElem?_of_mem_numberColumns hcod h
  rw [hidx, getElem?_of_mem_numberColumns hcod h'] at hcol
  cases col
  cases col'
  cases hidx
  cases hcol
  rfl

structure DataColumns (coded : List Bytes) (n : Nat) (columns : List DataColumn) : Prop where
  sound : ∀ column ∈ columns, column.index.toNat < n ∧
    coded[column.index.toNat]? = some column.column
  complete : ∀ i < n, ∃ column ∈ columns, column.index.toNat = i

namespace DataReconstructor

theorem of_lookup_columnData (h : DataColumns coded n cols)
    (hi : (columnData cols).lookup i = some col) : i < n ∧ coded[i]? = some col := by
  rcases HashMap.of_lookup_foldl_insert hi with ⟨c, hc, rfl, rfl⟩ | hnone
  · exact h.sound c ((Batches.perm_sortByKey _ _).mem_iff.mp hc)
  · cases hnone

theorem le_card_columnData (h : DataColumns coded n cols) : n ≤ (columnData cols).keys.card := by
  have hsub : Finset.range n ⊆ (columnData cols).keys := by
    intro i hi
    obtain ⟨c, hc, hci⟩ := h.complete i (Finset.mem_range.mp hi)
    refine Finmap.mem_keys.mpr (HashMap.mem_foldl_insert (.inr ⟨c, ?_, hci⟩))
    exact (Batches.perm_sortByKey _ _).mem_iff.mpr hc
  simpa using Finset.card_le_card hsub

end DataReconstructor

section
variable [ReedSolomon] {dataColumns : Nat}

theorem eq_of_newReconstructor (hnew : DataReconstructor.new dataColumns = .ok reconstructor) :
    reconstructor.dataColumns = dataColumns ∧
      ErasureCoding.new dataColumns dataColumns = .ok reconstructor.erasureCoder := by
  rw [DataReconstructor.new] at hnew
  split at hnew
  · next hcod =>
    cases hnew
    exact ⟨rfl, hcod⟩
  · cases hnew

variable [LawfulReedSolomon]

theorem DataReconstructor.reconstruct_spec
    (hnew : DataReconstructor.new dataColumns = .ok reconstructor)
    (hdata : data ≠ []) (h : DataColumns (ErasureCoding.blocks data dataColumns
      (ErasureCoding.shardSize data dataColumns) ++ others) dataColumns cols)
    (hlen : dataColumns ≤ cols.length) (hord : ∀ i < dataColumns, i ∈ order) :
    reconstructor.reconstruct order cols = .ok (data.rdropWhile (· == 0)) := by
  obtain ⟨hcols, hcod⟩ := eq_of_newReconstructor hnew
  obtain ⟨parity, henc, -⟩ := ErasureCoding.encode_spec hcod hdata
  rw [reconstruct, hcols, if_neg (not_lt.mpr hlen)]
  refine ErasureCoding.reconstruct_spec hcod henc ?_ (le_card_columnData h) ?_
  · intro i col hi
    obtain ⟨hlt, hi⟩ := of_lookup_columnData h hi
    have hfits := henc.fits
    rw [(ErasureCoding.shards_of_new hcod).1] at hfits
    rw [← (ErasureCoding.shards_blocks hfits).1] at hlt
    rw [getElem?_append_left hlt] at hi ⊢
    exact hi
  · intro i hi
    obtain ⟨col, hcol⟩ := Finmap.mem_iff.mp hi
    exact hord i (of_lookup_columnData h hcol).1

end

namespace PeerDAS

section
variable [ReedSolomon]

theorem storeColumns_eq (self : PeerDAS) :
    self.storeColumns blockRoot columns = .ok { self with
      localColumns := columns.foldl (fun stored column =>
        stored.insert { index := column.index, blockRoot } column) self.localColumns } := by
  induction columns generalizing self with
  | nil => rfl
  | cons column columns ih =>
    exact ih _

theorem eq_of_new {cfg : DASConfig} (hnew : new setup cfg = .ok das) : das.config = cfg ∧
      DataReconstructor.new cfg.dataColumns = .ok das.reconstructor ∧
      ErasureCoding.new cfg.dataColumns cfg.redundancyColumns = .ok das.erasureCoder := by
  cases setup with
  | error e => cases hnew
  | ok =>
    obtain ⟨reconstructor, hrec, hnew⟩ := hnew.of_bind
    obtain ⟨erasureCoder, hcod, hnew⟩ := hnew.of_bind
    cases hnew
    cases hdr : DataReconstructor.new cfg.dataColumns with
    | error e =>
      rw [hdr] at hrec
      cases hrec
    | ok r =>
      rw [hdr] at hrec
      cases hrec
      exact ⟨rfl, rfl, hcod⟩

theorem reconstructData_eq_ok {self : PeerDAS} :
    (self.reconstructData order root).1 = .ok data ↔
      self.config.dataColumns ≤ (self.collectAvailableColumns root).length ∧
      self.reconstructor.reconstruct order (self.collectAvailableColumns root) = .ok data := by
  by_cases hlt : (self.collectAvailableColumns root).length < self.config.dataColumns
  · have hfail : self.reconstructData order root = (_, _) := if_pos hlt
    rw [hfail]
    exact iff_of_false nofun fun h => not_le.mpr hlt h.1
  · have hrun : self.reconstructData order root =
        match self.reconstructor.reconstruct order (self.collectAvailableColumns root) with
        | .ok data => (.ok data, { self with status := .available })
        | .error e => (.error e, { self with status := .reconstructing }) := if_neg hlt
    rw [hrun, and_iff_right (not_lt.mp hlt)]
    cases self.reconstructor.reconstruct order (self.collectAvailableColumns root) with
    | ok => exact Iff.rfl
    | error => exact Iff.rfl

structure Stored (das : PeerDAS) (blockRoot : H256) (coded : List Bytes)
    (stored : List DataColumn) : Prop where
  coded_le : coded.length ≤ 256
  subset : ∀ column ∈ stored, column ∈ numberColumns coded
  lookup : ∀ index column, das.localColumns.lookup { index, blockRoot } = some column ↔
    column ∈ stored ∧ column.index = index

namespace Stored
variable {self : PeerDAS}

theorem of_storeColumns (self : PeerDAS) (hcod : coded.length ≤ 256)
    (hsub : ∀ column ∈ stored, column ∈ numberColumns coded)
    (hfr : ∀ index, self.localColumns.lookup { index, blockRoot } = none) :
    Stored { self with localColumns := stored.foldl (fun stored column =>
      stored.insert { index := column.index, blockRoot } column) self.localColumns }
      blockRoot coded stored := by
  refine ⟨hcod, hsub, fun index column => ?_⟩
  have hent {column : DataColumn} (h : (stored.foldl (fun stored column =>
      stored.insert { index := column.index, blockRoot } column) self.localColumns).lookup
        { index, blockRoot } = some column) : column ∈ stored ∧ column.index = index := by
    rcases HashMap.of_lookup_foldl_insert h with ⟨c, hc, hid, rfl⟩ | h
    · exact ⟨hc, congrArg ColumnId.index hid⟩
    · rw [hfr] at h
      cases h
  refine ⟨hent, ?_⟩
  rintro ⟨hmem, rfl⟩
  have hmem' : (⟨column.index, blockRoot⟩ : ColumnId) ∈ stored.foldl (fun stored column =>
      stored.insert { index := column.index, blockRoot } column) self.localColumns :=
    HashMap.mem_foldl_insert (.inr ⟨column, hmem, rfl⟩)
  obtain ⟨c, hc⟩ := Finmap.mem_iff.mp hmem'
  obtain ⟨hcmem, hidx⟩ := hent hc
  rw [hc, eq_of_index_eq hcod (hsub c hcmem) (hsub column hmem) hidx]

theorem le_length_iff_isSome :
    self.config.dataColumns ≤ (self.collectAvailableColumns blockRoot).length ↔
    ∀ i < self.config.dataColumns,
      (self.localColumns.lookup { index := .ofNat i, blockRoot }).isSome := by
  have hmax := length_filterMap_le (fun i =>
    self.localColumns.lookup { index := .ofNat i, blockRoot }) (range self.config.dataColumns)
  rw [length_range] at hmax
  have hlen : self.config.dataColumns ≤ (self.collectAvailableColumns blockRoot).length ↔
      (self.collectAvailableColumns blockRoot).length =
        (range self.config.dataColumns).length := by
    rw [length_range]
    exact ⟨fun h => le_antisymm hmax h, fun h => h.ge⟩
  rw [hlen, collectAvailableColumns, filterMap_length_eq_length]
  simp only [mem_range]

theorem entry (H : Stored self blockRoot coded stored) (hi : i < 256)
    (h : self.localColumns.lookup { index := .ofNat i, blockRoot } = some column) :
    column ∈ stored ∧ column.index.toNat = i ∧ coded[i]? = some column.column := by
  obtain ⟨hmem, hidx⟩ := (H.lookup _ _).mp h
  have hnat : column.index.toNat = i := by
    rw [hidx, UInt64.toNat_ofNat_of_lt' (show i < 2 ^ 64 by omega)]
  refine ⟨hmem, hnat, ?_⟩
  rw [← hnat]
  exact getElem?_of_mem_numberColumns H.coded_le (H.subset column hmem)

theorem le_length_iff (H : Stored self blockRoot coded stored)
    (hle : self.config.dataColumns ≤ coded.length) :
    self.config.dataColumns ≤ (self.collectAvailableColumns blockRoot).length ↔
      ∀ column ∈ (numberColumns coded).take self.config.dataColumns, column ∈ stored := by
  have hcod := H.coded_le
  have hget {i : Nat} (hi : i < self.config.dataColumns) :
      ((numberColumns coded).take self.config.dataColumns)[i]? =
        some { index := .ofNat i, column := coded[i] } := by
    rw [getElem?_take_of_lt hi, numberColumns_getElem?, getElem?_eq_getElem (hi.trans_le hle)]
    rfl
  rw [le_length_iff_isSome]
  constructor
  · intro h column hcol
    obtain ⟨i, hi⟩ := mem_iff_getElem?.mp hcol
    have hlt : i < self.config.dataColumns := by
      have := (List.getElem?_eq_some_iff.mp hi).1
      rw [length_take] at this
      omega
    obtain ⟨found, hfou⟩ := Option.isSome_iff_exists.mp (h i hlt)
    obtain ⟨hmem, -⟩ := H.entry (by omega) hfou
    rw [hget hlt] at hi
    cases hi
    have hidx := ((H.lookup _ _).mp hfou).2
    rwa [eq_of_index_eq hcod (H.subset found hmem) (mem_of_mem_take hcol) hidx] at hmem
  · intro h i hi
    rw [(H.lookup _ _).mpr ⟨h _ (mem_of_getElem? (hget hi)), rfl⟩]
    rfl

theorem dataColumns (H : Stored self blockRoot coded stored)
    (hle : self.config.dataColumns ≤ coded.length)
    (hlen : self.config.dataColumns ≤ (self.collectAvailableColumns blockRoot).length) :
    DataColumns coded self.config.dataColumns (self.collectAvailableColumns blockRoot) := by
  have hcod := H.coded_le
  constructor
  · intro column hcol
    obtain ⟨i, hi, hget⟩ := mem_filterMap.mp hcol
    rw [mem_range] at hi
    obtain ⟨-, hidx, hcol⟩ := H.entry (by omega) hget
    rw [hidx]
    exact ⟨hi, hcol⟩
  · intro i hi
    obtain ⟨column, hcol⟩ := Option.isSome_iff_exists.mp (le_length_iff_isSome.mp hlen i hi)
    refine ⟨column, mem_filterMap.mpr ⟨i, mem_range.mpr hi, hcol⟩, ?_⟩
    exact (H.entry (by omega) hcol).2.1

end Stored

variable [LawfulReedSolomon]

/-- Data that does not end with a zero byte is extended, and some of the columns are stored under a
block root for which there was nothing. It can be reconstructed if and only if these are all the
data columns. -/
theorem reconstruct_stored_iff {setup : Except String Unit} {cfg : DASConfig} {das : PeerDAS}
    (hnew : new setup cfg = .ok das) (status : DASStatus)
    (localColumns : HashMap ColumnId DataColumn) {blockRoot : H256}
    (hfr : ∀ index, localColumns.lookup { index, blockRoot } = none) {data : Bytes}
    (hdata : data ≠ []) (hlast : data.getLast hdata ≠ 0) :
    ∃ columns, { das with status, localColumns }.extendData data = .ok columns ∧
      columns.length = cfg.dataColumns + cfg.redundancyColumns ∧
      ∀ (stored : List DataColumn) (order : List Nat), (∀ column ∈ stored, column ∈ columns) →
        (∀ i < cfg.dataColumns, i ∈ order) →
        ∃ das', { das with status, localColumns }.storeColumns blockRoot stored = .ok das' ∧
          ((das'.reconstructData order blockRoot).1 = .ok data ↔
            ∀ column ∈ columns.take cfg.dataColumns, column ∈ stored) := by
  obtain ⟨rfl, hrec, hcod⟩ := eq_of_new hnew
  obtain ⟨parity, henc, henco⟩ := ErasureCoding.encode_spec hcod hdata
  have hcoded := (ErasureCoding.shards_blocks henc.fits).append henc.parity
  obtain ⟨hdat, hpar⟩ := ErasureCoding.shards_of_new hcod
  rw [hdat, hpar] at hcoded
  have hle : das.config.dataColumns + das.config.redundancyColumns ≤ 256 := by
    obtain ⟨code, hcode, -⟩ := ErasureCoding.eq_of_new hcod
    exact LawfulReedSolomon.shards_le hcode
  have hself : data.rdropWhile (· == 0) = data := by
    rw [rdropWhile_eq_self_iff]
    simpa [hdata] using hlast
  generalize hblo : ErasureCoding.blocks data das.config.dataColumns
    (ErasureCoding.shardSize data das.config.dataColumns) ++ parity = coded at henco hcoded
  refine ⟨numberColumns coded, ?_, ?_, fun stored order hsto hord =>
    ⟨_, storeColumns_eq _, ?_⟩⟩
  · simp only [extendData, henco, Call.ok_bind]
    rfl
  · rw [numberColumns, length_mapIdx, hcoded.1]
  · have H := Stored.of_storeColumns { das with status, localColumns } (hcoded.1.trans_le hle)
      hsto hfr
    have hlen : das.config.dataColumns ≤ coded.length := hcoded.1 ▸ Nat.le_add_right ..
    rw [reconstructData_eq_ok, ← H.le_length_iff hlen]
    refine and_iff_left_of_imp fun hfou => ?_
    have hcols := H.dataColumns hlen hfou
    rw [← hblo] at hcols
    exact (DataReconstructor.reconstruct_spec hrec hdata hcols hfou hord).trans
      (congrArg _ hself)

end

section
open Repetition

theorem reconstruct_stored_iff_sample : ∃ das das', new (.ok ()) ⟨1, 2⟩ = .ok das ∧
    das.extendData [7, 0, 9] = .ok [⟨0, [7, 0, 9]⟩, ⟨1, [7, 0, 9]⟩, ⟨2, [7, 0, 9]⟩] ∧
    das.storeColumns H256.zero [⟨2, [7, 0, 9]⟩, ⟨0, [7, 0, 9]⟩] = .ok das' ∧
    (das'.reconstructData [2, 0] H256.zero).1 = .ok [7, 0, 9] := by
  have hnew : new (.ok ()) ⟨1, 2⟩ = .ok _ := rfl
  obtain ⟨columns, hext, -, hiff⟩ := reconstruct_stored_iff hnew .idle ∅
    (fun index => Finmap.lookup_empty (⟨index, H256.zero⟩ : ColumnId)) (cons_ne_nil 7 [0, 9])
    (by decide)
  obtain rfl : columns = [⟨0, [7, 0, 9]⟩, ⟨1, [7, 0, 9]⟩, ⟨2, [7, 0, 9]⟩] :=
    Except.ok.inj (hext.symm.trans rfl)
  obtain ⟨das', hsto, hiff⟩ := hiff [⟨2, [7, 0, 9]⟩, ⟨0, [7, 0, 9]⟩] [2, 0] (by decide) (by decide)
  exact ⟨_, das', hnew, hext, hsto, hiff.mpr (by decide)⟩

/-- The redundancy column is stored, which is as many columns as there are data columns. -/
theorem redundancy_column_ignored : ∃ das das', new (.ok ()) ⟨1, 1⟩ = .ok das ∧
    das.extendData [7] = .ok [⟨0, [7]⟩, ⟨1, [7]⟩] ∧
    das.storeColumns H256.zero [⟨1, [7]⟩] = .ok das' ∧
    (das'.reconstructData [1] H256.zero).1 = .error (.err (.insufficientSamples 0 1)) :=
  ⟨_, _, rfl, rfl, rfl, rfl⟩

end

end PeerDAS

end EthereumRust.Das
