import EthereumRust.Core.Block
import EthereumRust.Core.Sender
import EthereumRust.Core.TransactionCodec
import EthereumRust.Filter.Bloom
import EthereumRust.Lib.Call

/-!
# Queries for logs (`crates/filter`: `log_filter.rs`)

`get_all_logs` reads the blocks of a range and the receipts of each, and collects the logs that
match the criteria, with their positions. A block is skipped when its bloom has none of the
addresses of the criteria. But an empty list is in no bloom, while for `matches` it stands for every
address.
-/

namespace EthereumRust.Filter

open Rust EthereumRust.Core List

inductive StorageError where
  | keyNotFound
  | databaseError (message : String)
  | serializationError (message : String)
  | invalidData (message : String)
  | ioError
  deriving DecidableEq, Repr

inductive FilterError where
  | filterNotFound
  | invalidCriteria
  | storageError (error : StorageError)
  | subscriptionError (message : String)
  | filterExpired
  deriving DecidableEq, Repr

inductive BlockNumber where
  | number (n : U256)
  | latest
  | earliest
  | pending
  deriving DecidableEq

structure FilterCriteria where
  fromBlock : Option BlockNumber
  toBlock : Option BlockNumber
  address : Option (List Address)
  topics : List (Option (List H256))
  deriving DecidableEq

structure Receipt where
  logs : List Log
  deriving DecidableEq

/-- The trait `Database`, of which a filter only reads. -/
class Database (D : Type) where
  get : D → Bytes → Except StorageError (Option Bytes)

class Bincode (α : Type) where
  deserialize : Bytes → Option α

/-- A filter without the queue of its pending logs. -/
structure LogFilter (D : Type) where
  criteria : FilterCriteria
  db : D

def hexEncode (bytes : Bytes) : String :=
  .ofList (bytes.flatMap fun byte => [(byte.toNat / 16).digitChar, (byte.toNat % 16).digitChar])

def blockNumberKey (n : U256) : Bytes := asBytes ("block:number:" ++ toString n.toNat)

def blockKey (hash : Bytes) : Bytes := asBytes ("block:" ++ hexEncode hash)

def receiptsKey (hash : H256) : Bytes := asBytes ("receipts:" ++ hexEncode hash.toList)

def Log.withPosition [Crypto] (log : Log) (header : Header) (transactionHash : Option H256)
    (txIndex logIndex : Nat) : Log :=
  { log with
    blockHash := some header.hash
    blockNumber := some header.number
    transactionHash
    transactionIndex := some (.ofUsize txIndex)
    logIndex := some (.ofUsize logIndex) }

namespace LogFilter

variable (self : LogFilter D)

def matchesLog (log : Log) : Bool :=
  (match self.criteria.address with
    | some addresses => addresses.isEmpty || addresses.contains log.address
    | none => true) &&
  self.criteria.topics.zipIdx.all fun filter =>
    match filter.1 with
    | some topics => topics.isEmpty ||
      match log.topics[filter.2]? with
      | some topic => topics.contains topic
      | none => false
    | none => true

def skips [Crypto] (bloom : Bloom) : Bool :=
  match self.criteria.address with
  | some addresses => !addresses.any (BloomFilter.containsAddress bloom)
  | none => false

section
variable [Database D]

def read (key : Bytes) : Call FilterError (Option Bytes) :=
  match Database.get self.db key with
  | .ok value => .ok value
  | .error e => Call.fail (.storageError e)

def getLatestBlockNumber : Call FilterError U256 := do
  match ← self.read (asBytes "latest_block") with
  | some data => if data.length = 32 then return .fromBigEndian data else Call.fail .invalidCriteria
  | none => return 0

def resolveBlockNumber : Option BlockNumber → Call FilterError U256
  | some (.number n) => return n
  | some .latest => self.getLatestBlockNumber
  | none => self.getLatestBlockNumber
  | some .earliest => return 0
  | some .pending => self.getLatestBlockNumber

/-- `bincode::deserialize(&data).map_err(|_| FilterError::InvalidCriteria)`. -/
def decoded {α : Type} [Bincode α] (data : Bytes) : Call FilterError α :=
  match Bincode.deserialize data with
  | some value => .ok value
  | none => Call.fail .invalidCriteria

def getBlock [Bincode Block] (blockNumber : U256) : Call FilterError Block := do
  match ← self.read (blockNumberKey blockNumber) with
  | none => Call.fail .invalidCriteria
  | some blockHash =>
    match ← self.read (blockKey blockHash) with
    | none => Call.fail .invalidCriteria
    | some blockData => decoded blockData

def getReceipts [Bincode (List Receipt)] (blockHash : H256) : Call FilterError (List Receipt) := do
  match ← self.read (receiptsKey blockHash) with
  | some data => decoded data
  | none => return []

end

section
variable [Crypto]

def collectLog (block : Block) (txIndex : Nat) (allLogs : List Log) (log : Log × Nat) :
    Call FilterError (List Log) :=
  if self.matchesLog log.1 then
    match block.transactions[txIndex]? with
    | some tx => .ok (allLogs ++ [log.1.withPosition block.header (some tx.hash) txIndex log.2])
    | none => .error (.panic .slice)
  else .ok allLogs

def collectReceipts (block : Block) (receipts : List Receipt) (allLogs : List Log) :
    Call FilterError (List Log) :=
  receipts.zipIdx.foldlM
    (fun allLogs receipt => receipt.1.logs.zipIdx.foldlM (self.collectLog block receipt.2) allLogs)
    allLogs

variable [Database D] [Bincode Block] [Bincode (List Receipt)]

def collectBlock (allLogs : List Log) (blockNum : Nat) : Call FilterError (List Log) := do
  let block ← self.getBlock (.ofUsize blockNum)
  if self.skips block.header.logsBloom then
    return allLogs
  else
    let receipts ← self.getReceipts block.header.hash
    self.collectReceipts block receipts allLogs

def getAllLogs : Call FilterError (List Log) := do
  let fromBlock ← self.resolveBlockNumber self.criteria.fromBlock
  let toBlock ← self.resolveBlockNumber self.criteria.toBlock
  let first ← fromBlock.asU64
  let last ← toBlock.asU64
  (List.range' first.toNat (last.toNat + 1 - first.toNat)).foldlM self.collectBlock []

end

section
variable [Crypto]

def positionedLogs (block : Block) (receipts : List Receipt) : List Log :=
  receipts.zipIdx.flatMap fun receipt => receipt.1.logs.zipIdx.map fun log =>
    log.1.withPosition block.header (block.transactions[receipt.2]?.map Transaction.hash) receipt.2
      log.2

/-- The specification of a query: the matching logs of the blocks of the range, in order. -/
def matchingLogs (chain : Nat → Block × List Receipt) (first last : Nat) : List Log :=
  ((List.range' first (last + 1 - first)).flatMap fun n =>
    positionedLogs (chain n).1 (chain n).2).filter self.matchesLog

def BloomOf (block : Block) (receipts : List Receipt) : Prop :=
  ∃ bloom, block.header.logsBloom =
    BloomFilter.addAll bloom ((receipts.flatMap Receipt.logs).map fun log => log.address.toList)

structure Stored [Database D] [Bincode Block] [Bincode (List Receipt)] (db : D) (n : Nat)
    (block : Block) (receipts : List Receipt) : Prop where
  hasBlock : ∃ hash data, Database.get db (blockNumberKey (.ofUsize n)) = .ok (some hash) ∧
    Database.get db (blockKey hash) = .ok (some data) ∧ Bincode.deserialize data = some block
  hasReceipts : ∃ data, Database.get db (receiptsKey block.header.hash) = .ok (some data) ∧
    Bincode.deserialize data = some receipts
  length_le : receipts.length ≤ block.transactions.length
  bloom : BloomOf block receipts

variable {self}

@[simp] theorem matchesLog_withPosition {hash : Option H256} :
    self.matchesLog (log.withPosition header hash i j) = self.matchesLog log := rfl

theorem collectReceipts_eq (hlen : recs.length ≤ block.transactions.length) :
    self.collectReceipts block recs acc =
      .ok (acc ++ (positionedLogs block recs).filter self.matchesLog) := by
  rw [positionedLogs, filter_flatMap]
  refine Call.foldlM_append_eq_ok (fun receipt hrec acc => ?_)
  have hi : receipt.2 < block.transactions.length := by
    have h := (mem_zipIdx' hrec).1
    exact lt_of_lt_of_le h hlen
  simp only [map_eq_flatMap, filter_flatMap]
  refine Call.foldlM_append_eq_ok (fun log _ acc => ?_)
  rw [collectLog, getElem?_eq_getElem hi]
  by_cases hmat : self.matchesLog log.1 = true
  · simp [hmat]
  · simp [hmat]

theorem mem_positionedLogs (h : log ∈ positionedLogs block recs) :
    log.address.toList ∈ (recs.flatMap Receipt.logs).map fun log => log.address.toList := by
  obtain ⟨receipt, hrec, h⟩ := mem_flatMap.mp h
  obtain ⟨log', hlog', rfl⟩ := mem_map.mp h
  have hmem : log'.1 ∈ recs.flatMap Receipt.logs :=
    mem_flatMap.mpr ⟨receipt.1, fst_mem_of_mem_zipIdx hrec, fst_mem_of_mem_zipIdx hlog'⟩
  exact mem_map.mpr ⟨log'.1, hmem, rfl⟩

theorem filter_positionedLogs_eq_nil (hblo : BloomOf block recs)
    (haddr : self.criteria.address ≠ some []) (hskip : self.skips block.header.logsBloom = true) :
    (positionedLogs block recs).filter self.matchesLog = [] := by
  obtain ⟨bloom, hblo⟩ := hblo
  rw [filter_eq_nil_iff]
  intro log hlog hmat
  have hfou : BloomFilter.containsAddress block.header.logsBloom log.address = true :=
    hblo ▸ BloomFilter.containsAddress_addAll (mem_positionedLogs hlog)
  cases hcri : self.criteria.address with
  | none => simp [skips, hcri] at hskip
  | some addresses =>
    have hne : addresses ≠ [] := fun h => haddr (h ▸ hcri)
    have hmem : log.address ∈ addresses := by
      simp only [matchesLog, hcri, Bool.and_eq_true, Bool.or_eq_true, List.isEmpty_iff, hne,
        false_or, contains_iff_mem] at hmat
      exact hmat.1
    simp only [skips, hcri, Bool.not_eq_true', any_eq_false] at hskip
    exact hskip log.address hmem hfou

section
variable [Database D] [Bincode Block] [Bincode (List Receipt)]

theorem collectBlock_eq (H : Stored self.db n block recs) (acc : List Log) :
    self.collectBlock acc n = .ok (acc ++
      if self.skips block.header.logsBloom then []
      else (positionedLogs block recs).filter self.matchesLog) := by
  obtain ⟨hash, data, hnum, hblk, hdata⟩ := H.hasBlock
  obtain ⟨data', hrec, hdata'⟩ := H.hasReceipts
  have hget : self.getBlock (.ofUsize n) = .ok block := by
    simp [getBlock, read, decoded, hnum, hblk, hdata]
  have hget' : self.getReceipts block.header.hash = .ok recs := by
    simp [getReceipts, read, decoded, hrec, hdata']
  rw [collectBlock, hget, Call.ok_bind]
  split_ifs with hskip
  · rw [append_nil]
    rfl
  · rw [hget', Call.ok_bind, collectReceipts_eq H.length_le]

theorem foldlM_collectBlock {chain : Nat → Block × List Receipt} {l : List Nat}
    (H : ∀ n ∈ l, Stored self.db n (chain n).1 (chain n).2) :
    l.foldlM self.collectBlock [] =
      .ok (if self.criteria.address = some [] then []
        else (l.flatMap fun n =>
          positionedLogs (chain n).1 (chain n).2).filter self.matchesLog) := by
  rw [Call.foldlM_append_eq_ok (fun n hn => collectBlock_eq (H n hn))]
  congr 1
  split_ifs with haddr
  · refine flatMap_eq_nil_iff.mpr fun n _ => if_pos ?_
    simp [skips, haddr]
  · rw [filter_flatMap]
    refine flatMap_congr fun n hn => ?_
    split_ifs with hskip
    · exact (filter_positionedLogs_eq_nil (H n hn).bloom haddr hskip).symm
    · rfl

/-- On a database with the blocks of the range, `get_all_logs` returns the logs that match just if
the ends of the range fit in a machine word and, for an empty list of addresses, no log matches. -/
theorem getAllLogs_eq_iff (self : LogFilter D) (chain : Nat → Block × List Receipt)
    (first last : U256) (hfst : self.resolveBlockNumber self.criteria.fromBlock = .ok first)
    (hlast : self.resolveBlockNumber self.criteria.toBlock = .ok last)
    (H : ∀ n, first.toNat ≤ n → n ≤ last.toNat → Stored self.db n (chain n).1 (chain n).2) :
    self.getAllLogs = .ok (self.matchingLogs chain first.toNat last.toNat) ↔
      (first.toNat < wordBound ∧ last.toNat < wordBound) ∧
        (self.criteria.address = some [] →
          self.matchingLogs chain first.toNat last.toNat = []) := by
  rw [getAllLogs, hfst, Call.ok_bind, hlast, Call.ok_bind]
  by_cases hf : first.toNat < wordBound
  · by_cases hl : last.toNat < wordBound
    · have hsto : ∀ n ∈ range' first.toNat (last.toNat + 1 - first.toNat),
          Stored self.db n (chain n).1 (chain n).2 := by
        intro n hn
        have h := mem_range'_1.mp hn
        exact H n h.1 (by omega)
      rw [U256.asU64_of_lt hf, U256.asU64_of_lt hl, Call.liftM_ok, Call.ok_bind, Call.liftM_ok,
        Call.ok_bind, UInt64.toNat_ofNat_of_lt' hf, UInt64.toNat_ofNat_of_lt' hl,
        foldlM_collectBlock hsto, and_iff_right ⟨hf, hl⟩]
      split_ifs with haddr
      · exact ⟨fun h _ => (Except.ok.inj h).symm, fun h => congrArg _ (h haddr).symm⟩
      · exact iff_of_true rfl fun h => absurd h haddr
    · rw [U256.asU64_of_lt hf, U256.asU64_of_le (Nat.le_of_not_lt hl)]
      exact iff_of_false (fun h => nomatch h) fun h => hl h.1.2
  · rw [U256.asU64_of_le (Nat.le_of_not_lt hf)]
    exact iff_of_false (fun h => nomatch h) fun h => hf h.1.1

end

end

namespace Sample

open Unhashed

scoped instance : Database (List (Bytes × Bytes)) := ⟨fun db key => .ok (db.lookup key)⟩

def block : Block where
  header := { Header.new with
    logsBloom := BloomFilter.addAll Header.new.logsBloom [Address.zero.toList] }
  transactions := [.legacy creation]
  ommers := []
  withdrawals := none

def receipts : List Receipt := [⟨[BloomFilter.sampleLog]⟩]

scoped instance : Bincode Block := ⟨fun _ => some block⟩

scoped instance : Bincode (List Receipt) := ⟨fun _ => some receipts⟩

def db : List (Bytes × Bytes) :=
  [(blockNumberKey 0, H256.zero.toList), (blockKey H256.zero.toList, []), (receiptsKey .zero, [])]

def filter (address : Option (List Address)) : LogFilter (List (Bytes × Bytes)) where
  criteria := ⟨some .earliest, some (.number 0), address, []⟩
  db

theorem stored : Stored db 0 block receipts where
  hasBlock := ⟨H256.zero.toList, [], by decide +kernel, by decide +kernel, rfl⟩
  hasReceipts := ⟨[], by decide +kernel, rfl⟩
  length_le := by decide
  bloom := ⟨Header.new.logsBloom, rfl⟩

theorem getAllLogs_eq_iff_sample :
    (filter (some [Address.zero])).getAllLogs =
      .ok ((filter (some [Address.zero])).matchingLogs (fun _ => (block, receipts)) 0 0) :=
  (getAllLogs_eq_iff _ (fun _ => (block, receipts)) 0 0 rfl rfl fun n _ hn => by
    obtain rfl : n = 0 := Nat.le_zero.mp hn
    exact stored).mpr ⟨⟨by decide, by decide⟩, nofun⟩

/-- An empty list of addresses skips every block. -/
theorem empty_addresses_skip :
    (filter (some [])).getAllLogs = .ok [] ∧
      (filter (some [])).matchingLogs (fun _ => (block, receipts)) 0 0 ≠ [] := by
  decide +kernel

end Sample

end LogFilter

end EthereumRust.Filter
