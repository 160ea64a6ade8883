import EthereumRust.Crypto
import EthereumRust.Lib.Bits

/-!
# The bloom of the logs (`crates/filter`: `lib.rs`)

`add_to_bloom` sets three bits for the hash of what is added, and leaves out those that a bloom does
not have. The query for an address looks for the bits of its hash; the query for a topic takes the
topic itself for the hash.
-/

namespace EthereumRust.Filter

structure Log where
  address : Address
  topics : List H256
  blockHash : Option H256
  blockNumber : Option U256
  transactionHash : Option H256
  transactionIndex : Option U256
  logIndex : Option U256
  deriving DecidableEq

namespace BloomFilter

def bitIndices (hash : H256) : List Nat :=
  (List.range 3).map fun i =>
    (hash.toList.getD (i * 2) 0).toNat ||| (hash.toList.getD (i * 2 + 1) 0).toNat <<< 8

def containsHash (bloom : Bloom) (hash : H256) : Bool :=
  (bitIndices hash).all fun bitIndex =>
    !(decide (bitIndex / 8 < bloom.toList.length) && !Bits.testBit bloom.toList bitIndex)

def containsTopic (bloom : Bloom) (topic : H256) : Bool := containsHash bloom topic

def bloomItems (logs : List Log) : List Bytes :=
  logs.flatMap fun log => log.address.toList :: log.topics.map List.Vector.toList

theorem address_mem_bloomItems (h : log ∈ logs) : log.address.toList ∈ bloomItems logs :=
  List.mem_flatMap.mpr ⟨log, h, List.mem_cons_self⟩

section
variable [Crypto]

def containsAddress (bloom : Bloom) (address : Address) : Bool :=
  containsHash bloom (keccak256 address.toList)

def matchesLog (bloom : Bloom) (log : Log) : Bool :=
  containsAddress bloom log.address && log.topics.all (containsTopic bloom)

def addToBloom (bloom : Bloom) (data : Bytes) : Bloom :=
  ⟨Bits.setBits bloom.toList (bitIndices (keccak256 data)),
    Bits.length_setBits.trans bloom.toList_length⟩

def addAll (bloom : Bloom) (items : List Bytes) : Bloom := items.foldl addToBloom bloom

theorem testBit_addToBloom : Bits.testBit (addToBloom bloom data).toList k = true ↔
      Bits.testBit bloom.toList k = true ∨ k ∈ bitIndices (keccak256 data) ∧ k / 8 < 256 := by
  refine Bits.testBit_setBits.trans ?_
  rw [bloom.toList_length]

theorem testBit_addAll :
    Bits.testBit (addAll bloom items).toList k = true ↔
      Bits.testBit bloom.toList k = true ∨
        (∃ item ∈ items, k ∈ bitIndices (keccak256 item)) ∧ k / 8 < 256 := by
  induction items generalizing bloom with
  | nil => simp [addAll]
  | cons item items ih =>
    rw [addAll, List.foldl_cons, ← addAll, ih, testBit_addToBloom]
    grind

theorem containsHash_addAll {hash : H256} :
    containsHash (addAll bloom items) hash = true ↔ ∀ k ∈ bitIndices hash, k / 8 < 256 →
      Bits.testBit bloom.toList k = true ∨ ∃ item ∈ items, k ∈ bitIndices (keccak256 item) := by
  rw [containsHash, List.all_eq_true]
  refine forall₂_congr fun k _ => ?_
  simp only [Bool.not_eq_true', Bool.and_eq_false_iff, decide_eq_false_iff_not, Bool.not_eq_false',
    testBit_addAll, List.Vector.toList_length]
  grind

theorem containsAddress_addAll (h : addr.toList ∈ items) :
    containsAddress (addAll bloom items) addr = true :=
  containsHash_addAll.mpr fun _ hk _ => .inr ⟨_, h, hk⟩

/-- The logs that were added to a bloom all match it just if the bits which the topics themselves
name, those that a bloom has, were set before or belong to the hash of something that was added. -/
theorem matches_added_iff (bloom : Bloom) (logs : List Log) :
    (∀ log ∈ logs, matchesLog (addAll bloom (bloomItems logs)) log = true) ↔
      ∀ log ∈ logs, ∀ topic ∈ log.topics, ∀ k ∈ bitIndices topic, k / 8 < 256 →
        Bits.testBit bloom.toList k = true ∨
          ∃ item ∈ bloomItems logs, k ∈ bitIndices (keccak256 item) := by
  refine forall₂_congr fun log hlog => ?_
  rw [matchesLog, containsAddress_addAll (address_mem_bloomItems hlog), Bool.true_and,
    List.all_eq_true]
  exact forall₂_congr fun topic _ => containsHash_addAll

end

section
open Horner List

def sampleTopic : H256 := ⟨1 :: List.replicate 31 0, by decide⟩

def sampleLog : Log where
  address := Address.zero
  topics := [sampleTopic]
  blockHash := none
  blockNumber := none
  transactionHash := none
  transactionIndex := none
  logIndex := none

/-- `contains_topic` looks for the bits of the topic itself, and not for those of its hash. -/
theorem added_log_missed :
    matchesLog (addAll ⟨replicate 256 0, length_replicate⟩ (bloomItems [sampleLog]))
      sampleLog = false := by
  decide +kernel

end

end BloomFilter

end EthereumRust.Filter
