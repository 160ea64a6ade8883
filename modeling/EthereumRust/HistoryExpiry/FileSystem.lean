import EthereumRust.HistoryExpiry.Manager
import EthereumRust.Lib.History

/-!
# Archives in the file system (`crates/history-expiry`: `archival.rs`)

An archive is named by the numbers of its first and its last block. Its file is overwritten when
another list of blocks gets the same name, while the metadata keep an entry for every call, and
`retrieve_blocks` compares the file with the checksum of the first entry.
-/

namespace EthereumRust.HistoryExpiry

open Rust Method EthereumRust.Core List

inductive CompressionType where
  | none
  | zstd (level : Int)
  | lz4
  | snappy

/-- The crates `bincode`, `zstd`, `lz4` and `snap`. An error is its message. -/
class ArchiveCodec where
  serialize : List Block → Except String Bytes
  deserialize : Bytes → Except String (List Block)
  compress : CompressionType → Bytes → Except String Bytes
  decompress : CompressionType → Bytes → Except String Bytes

/-- What was serialized and compressed comes back. -/
class LawfulArchiveCodec [ArchiveCodec] : Prop where
  deserialize_serialize : ∀ {blocks data}, ArchiveCodec.serialize blocks = .ok data →
    ArchiveCodec.deserialize data = .ok blocks
  decompress_compress : ∀ {compression data compressed},
    ArchiveCodec.compress compression data = .ok compressed →
      ArchiveCodec.decompress compression compressed = .ok data

structure ArchiveEntry where
  id : String
  path : List String
  blockRange : U256 × U256
  size : UInt64
  checksum : H256

structure ArchivalMetadata where
  archives : List ArchiveEntry
  totalSize : UInt64
  totalBlocks : UInt64

/-- The backend with the file system. A path is the list of its components. -/
structure FileSystemBackend where
  basePath : String
  compression : CompressionType
  metadata : ArchivalMetadata
  files : HashMap (List String) Bytes

def ofCodec (error : String → HistoryExpiryError) (what : String) :
    Except String α → Except HistoryExpiryError α :=
  Except.mapError fun e => error s!"{what}: {e}"

theorem ofCodec_eq_ok {α : Type} {r : Except String α} {a : α} :
    ofCodec error what r = .ok a ↔ r = .ok a :=
  Except.mapError_eq_ok

namespace FileSystemBackend

def new (basePath : String) (compression : CompressionType) : FileSystemBackend :=
  ⟨basePath, compression, ⟨[], 0, 0⟩, ∅⟩

def filePath (self : FileSystemBackend) (archiveId : String) : List String :=
  [self.basePath, "archives", archiveId ++ ".dat"]

section
variable [ArchiveCodec]

def compressData (compression : CompressionType) (data : Bytes) : Except HistoryExpiryError Bytes :=
  let compressed := ArchiveCodec.compress compression data
  match compression with
  | .none => .ok data
  | .zstd _ => ofCodec .archivalError "Compression failed" compressed
  | .lz4 => ofCodec .archivalError "LZ4 compression failed" compressed
  | .snappy => ofCodec .archivalError "Snappy compression failed" compressed

def decompressData (compression : CompressionType) (data : Bytes) :
    Except HistoryExpiryError Bytes :=
  let decompressed := ArchiveCodec.decompress compression data
  match compression with
  | .none => .ok data
  | .zstd _ => ofCodec .archivalError "Decompression failed" decompressed
  | .lz4 => ofCodec .archivalError "LZ4 decompression failed" decompressed
  | .snappy => ofCodec .archivalError "Snappy decompression failed" decompressed

def encode (compression : CompressionType) (blocks : List Block) :
    Except HistoryExpiryError Bytes := do
  let serialized ← ofCodec .archivalError "Serialization failed" (ArchiveCodec.serialize blocks)
  compressData compression serialized

def decode (compression : CompressionType) (compressed : Bytes) :
    Except HistoryExpiryError (List Block) := do
  let decompressed ← decompressData compression compressed
  ofCodec .retrievalError "Deserialization failed" (ArchiveCodec.deserialize decompressed)

variable [Crypto]

def archiveBlocks (blocks : List Block) : Method FileSystemBackend HistoryExpiryError String :=
  match blocks.head?, blocks.getLast? with
  | some first, some last => do
    let firstBlock := first.header.number
    let lastBlock := last.header.number
    let id := s!"blocks_{firstBlock.toNat}-{lastBlock.toNat}"
    let compression ← read compression
    let compressed ← result (encode compression blocks)
    let checksum := keccak256 compressed
    let path ← read (·.filePath id)
    update fun self => { self with files := self.files.insert path compressed }
    let metadata ← read metadata
    let stop ← U256.add lastBlock 1
    let size := UInt64.ofNat compressed.length
    let entry : ArchiveEntry := ⟨id, path, (firstBlock, stop), size, checksum⟩
    let totalSize ← addU64 metadata.totalSize size
    let totalBlocks ← addU64 metadata.totalBlocks (.ofNat blocks.length)
    update ({ · with metadata := ⟨metadata.archives ++ [entry], totalSize, totalBlocks⟩ })
    return id
  | _, _ => fail (.archivalError "No blocks to archive")

def contains (blockRange : U256 × U256) (block : Block) : Bool :=
  blockRange.1 ≤ block.header.number ∧ block.header.number < blockRange.2

def retrieveBlocks (self : FileSystemBackend) (archiveId : String) (blockRange : U256 × U256) :
    Except HistoryExpiryError (List Block) :=
  match self.metadata.archives.find? (·.id = archiveId) with
  | none => .error (.retrievalError "Archive not found")
  | some entry =>
    match self.files.lookup entry.path with
    | none =>
      .error (.retrievalError "Failed to read archive: No such file or directory (os error 2)")
    | some compressed =>
      if keccak256 compressed ≠ entry.checksum then .error (.retrievalError "Checksum mismatch")
      else do
        let blocks ← decode self.compression compressed
        return blocks.filter (contains blockRange)

structure Archives (blocks : List Block) (self : FileSystemBackend) (id : String) (data : Bytes)
    (self' : FileSystemBackend) : Prop where
  encoded : encode self.compression blocks = .ok data
  compression : self'.compression = self.compression
  basePath : self'.basePath = self.basePath
  files : self'.files = self.files.insert (self.filePath id) data
  entries : ∃ entry, self'.metadata.archives = self.metadata.archives ++ [entry] ∧
    entry.id = id ∧ entry.path = self.filePath id ∧ entry.checksum = keccak256 data

theorem archives_of_eq_ok {id : String}
    (h : archiveBlocks blocks s = .ok id s') : ∃ data, Archives blocks s id data s' := by
  rw [archiveBlocks] at h
  rcases hfst : blocks.head? with _ | first
  · rw [hfst] at h
    cases h
  rcases hlast : blocks.getLast? with _ | last
  · rw [hfst, hlast] at h
    cases h
  rw [hfst, hlast] at h
  dsimp only at h
  rw [bind_read, bind_result_eq_ok] at h
  obtain ⟨data, hdata, h⟩ := h
  rw [bind_read, bind_update, bind_read, bind_checked_eq_ok] at h
  obtain ⟨stop, -, h⟩ := h
  obtain ⟨totalSize, -, h⟩ := bind_checked_eq_ok.mp h
  obtain ⟨totalBlocks, -, h⟩ := bind_checked_eq_ok.mp h
  rw [bind_update] at h
  cases h
  exact ⟨data, hdata, rfl, rfl, rfl, _, rfl, rfl, rfl, rfl⟩

/-- The block lists archived under an id, oldest first. -/
def archivedUnder (id : String) (calls : List (List Block × String)) : List (List Block) :=
  (calls.filter (·.2 = id)).map Prod.fst

def checksumOf (compression : CompressionType) (blocks : List Block) :
    Except HistoryExpiryError H256 :=
  (encode compression blocks).map keccak256

abbrev ArchiveStep (_ : List (List Block × String)) (self : FileSystemBackend)
    (call : List Block × String) (self' : FileSystemBackend) : Prop :=
  archiveBlocks call.1 self = .ok call.2 self'

structure Holds (compression : CompressionType) (calls : List (List Block × String))
    (backend : FileSystemBackend) : Prop where
  compression_eq : backend.compression = compression
  entry : ∀ id, (backend.metadata.archives.find? (·.id = id)).map
      (fun entry => (entry.path, .ok entry.checksum)) =
    (archivedUnder id calls).head?.map fun blocks =>
      (backend.filePath id, checksumOf compression blocks)
  file : ∀ id, (backend.files.lookup (backend.filePath id)).map .ok =
    (archivedUnder id calls).getLast?.map (encode compression)

omit [ArchiveCodec] [Crypto] in
theorem filePath_inj {s : FileSystemBackend} {id id' : String} :
    s.filePath id = s.filePath id' ↔ id = id' := by
  simp [filePath]

omit [ArchiveCodec] [Crypto] in
theorem archivedUnder_concat (id : String) : archivedUnder id (calls ++ [call]) =
      archivedUnder id calls ++ if call.2 = id then [call.1] else [] := by
  rw [archivedUnder, archivedUnder]
  split_ifs with h <;> simp [h]

theorem Holds.step {comp : CompressionType} {calls : List (List Block × String)}
    {s s' : FileSystemBackend} (h : Holds comp calls s)
    (hstep : archiveBlocks call.1 s = .ok call.2 s') : Holds comp (calls ++ [call]) s' := by
  obtain ⟨data, henc, hcom, hbase, hfile, entry, hents, hid, hpath, hche⟩ := archives_of_eq_ok hstep
  rw [h.compression_eq] at henc hcom
  have hfil (id : String) : s'.filePath id = s.filePath id := by
    rw [filePath, filePath, hbase]
  refine ⟨hcom, fun id => ?_, fun id => ?_⟩
  · rw [hents, find?_append, archivedUnder_concat, head?_append, Option.map_or,
      Option.map_or, h.entry id, hfil]
    congr 1
    by_cases hcall : call.2 = id
    · subst hcall
      simp [hid, hpath, hche, checksumOf, henc, Except.map]
    · simp [hid, hcall]
  · rw [hfile, hfil, HashMap.lookup_insert_ite, archivedUnder_concat]
    by_cases hcall : call.2 = id
    · subst hcall
      simp [henc]
    · simpa [filePath_inj, hcall, Ne.symm hcall] using h.file id

theorem holds_of_run {basePath : String} {comp : CompressionType} {s : FileSystemBackend}
    (h : History.Run ArchiveStep (new basePath comp) calls s) : Holds comp calls s := by
  refine h.induct (fun calls s => Holds comp calls s) ⟨rfl, fun _ => rfl, fun _ => rfl⟩ ?_
  intro calls s call s' _ hhol hstep
  exact hhol.step hstep

variable [LawfulArchiveCodec]

omit [Crypto] in
theorem decompressData_compressData {comp : CompressionType}
    (h : compressData comp data = .ok compressed) : decompressData comp compressed = .ok data := by
  have hcod {error error' : String → HistoryExpiryError} {what what' : String}
      (h : ofCodec error what (ArchiveCodec.compress comp data) = .ok compressed) :
      ofCodec error' what' (ArchiveCodec.decompress comp compressed) = .ok data :=
    ofCodec_eq_ok.mpr (LawfulArchiveCodec.decompress_compress (ofCodec_eq_ok.mp h))
  cases comp with
  | none =>
    cases h
    rfl
  | zstd level => exact hcod h
  | lz4 => exact hcod h
  | snappy => exact hcod h

omit [Crypto] in
theorem decode_encode {comp : CompressionType} {blocks : List Block} {data : Bytes}
    (h : encode comp blocks = .ok data) : decode comp data = .ok blocks := by
  rw [encode] at h
  cases hser : ArchiveCodec.serialize blocks with
  | error e =>
    rw [hser] at h
    cases h
  | ok serialized =>
    rw [hser] at h
    rw [decode, decompressData_compressData h]
    exact ofCodec_eq_ok.mpr (LawfulArchiveCodec.deserialize_serialize hser)

theorem retrieveBlocks_of_holds {comp : CompressionType} (h : Holds comp calls self) {id : String}
    (hfst : (archivedUnder id calls).head? = some first)
    (hlast : (archivedUnder id calls).getLast? = some last) :
    self.retrieveBlocks id blockRange =
      if checksumOf comp first = checksumOf comp last then
        .ok (last.filter (contains blockRange))
      else .error (.retrievalError "Checksum mismatch") := by
  have hent := h.entry id
  rw [hfst, Option.map_some, Option.map_eq_some_iff] at hent
  obtain ⟨entry, hfind, hent⟩ := hent
  obtain ⟨hpath, hche⟩ := Prod.mk.inj hent
  have hfile := h.file id
  rw [hlast, Option.map_some, Option.map_eq_some_iff] at hfile
  obtain ⟨data, hget, hdata⟩ := hfile
  have hiff : checksumOf comp first = checksumOf comp last ↔
      keccak256 data = entry.checksum := by
    rw [← hche, checksumOf, ← hdata]
    exact ⟨fun heq => (Except.ok.inj heq).symm, fun heq => congrArg Except.ok heq.symm⟩
  rw [retrieveBlocks, hfind]
  dsimp only
  rw [hpath, hget]
  dsimp only
  by_cases hsame : keccak256 data = entry.checksum
  · rw [if_neg (not_not.mpr hsame), if_pos (hiff.mpr hsame), h.compression_eq,
      decode_encode hdata.symm]
    rfl
  · rw [if_pos hsame, if_neg (mt hiff.mp hsame)]

end

/-- Whatever has been archived, retrieval under a name that was returned finds the blocks of the
last list with that name, exactly when this list has the checksum of the first one with that name.
-/
theorem retrieveBlocks_last_iff [ArchiveCodec] [LawfulArchiveCodec] [Crypto] (basePath : String)
    (comp : CompressionType) {calls : List (List Block × String)} {s : FileSystemBackend}
    (h : History.Run ArchiveStep (new basePath comp) calls s) {id : String}
    (hid : id ∈ calls.map Prod.snd) :
    ∃ first last, (archivedUnder id calls).head? = some first ∧
      (archivedUnder id calls).getLast? = some last ∧
      ∀ blockRange, s.retrieveBlocks id blockRange = .ok (last.filter (contains blockRange)) ↔
        checksumOf comp first = checksumOf comp last := by
  have hne : archivedUnder id calls ≠ [] := by
    obtain ⟨call, hcall, rfl⟩ := mem_map.mp hid
    refine ne_nil_of_mem (a := call.1) (mem_map_of_mem (mem_filter.mpr ⟨hcall, ?_⟩))
    exact decide_eq_true rfl
  refine ⟨_, _, head?_eq_some_head hne, getLast?_eq_some_getLast hne, fun blockRange => ?_⟩
  rw [retrieveBlocks_of_holds (holds_of_run h) (head?_eq_some_head hne)
    (getLast?_eq_some_getLast hne)]
  split_ifs with hsame
  · exact iff_of_true rfl hsame
  · exact iff_of_false nofun hsame

namespace Sample
open Sized

def block (timestamp : UInt64) : Block := .new { Header.new with timestamp }

/-- A codec for two lists of blocks, which are stored in files of different lengths. -/
scoped instance : ArchiveCodec where
  serialize blocks :=
    if blocks = [block 1] then .ok [1] else if blocks = [block 2] then .ok [1, 2] else .error ""
  deserialize data := if data = [1] then .ok [block 1] else .ok [block 2]
  compress _ data := .ok data
  decompress _ data := .ok data

scoped instance : LawfulArchiveCodec where
  deserialize_serialize {blocks data} h := by
    change (if blocks = [block 1] then Except.ok [1] else
      if blocks = [block 2] then .ok [1, 2] else .error "") = .ok data at h
    split_ifs at h with h₁ h₂
    · cases h
      rw [h₁]
      rfl
    · cases h
      rw [h₂]
      rfl
  decompress_compress h := Except.ok.inj h ▸ rfl

set_option maxRecDepth 8000 in
theorem retrieveBlocks_last_twice : ∃ self,
    History.Run ArchiveStep (new "" .none) [([block 1], "blocks_0-0"), ([block 1], "blocks_0-0")]
      self ∧ self.retrieveBlocks "blocks_0-0" (0, 1) = .ok [block 1] := by
  obtain ⟨self, hrun⟩ : ∃ self, History.Run ArchiveStep (new "" .none)
      ([] ++ [([block 1], "blocks_0-0")] ++ [([block 1], "blocks_0-0")]) self :=
    ⟨_, .next (.next .start rfl) rfl⟩
  have hid : "blocks_0-0" ∈ ["blocks_0-0", "blocks_0-0"] := mem_cons_self
  obtain ⟨first, last, hfirst, hlast, hiff⟩ := retrieveBlocks_last_iff "" .none hrun hid
  obtain rfl : [block 1] = first := Option.some.inj hfirst
  obtain rfl : [block 1] = last := Option.some.inj hlast
  exact ⟨self, hrun, (hiff (0, 1)).mpr rfl⟩

set_option maxRecDepth 8000 in
/-- The second archive overwrites the file that the first entry has the checksum of. -/
theorem retrieveBlocks_mismatch : ∃ self,
    History.Run ArchiveStep (new "" .none) [([block 1], "blocks_0-0"), ([block 2], "blocks_0-0")]
      self ∧ ∀ blockRange, self.retrieveBlocks "blocks_0-0" blockRange =
        .error (.retrievalError "Checksum mismatch") := by
  change ∃ self, History.Run ArchiveStep (new "" .none)
    ([] ++ [([block 1], "blocks_0-0")] ++ [([block 2], "blocks_0-0")]) self ∧ _
  exact ⟨_, .next (.next .start rfl) rfl, fun _ => rfl⟩

end Sample

end FileSystemBackend

end EthereumRust.HistoryExpiry
