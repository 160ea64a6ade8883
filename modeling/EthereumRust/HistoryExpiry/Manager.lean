import EthereumRust.Core.Block
import EthereumRust.Lib.Batches
import EthereumRust.Lib.Blocks
import Mathlib.Data.List.Destutter

/-!
# The expiry of old blocks (`crates/history-expiry`: `expiry_manager.rs`)

A run of the manager picks block numbers by the configured policy, hands the blocks to the archival
backend in chunks of a hundred and to the portal network one by one, and passes the numbers to the
pruning engine. The storage, the backend and the engine are given by what they answer.

A `SystemTime` is a number of nanoseconds since the epoch, and a `Duration` is a number of
nanoseconds.
-/

namespace EthereumRust.HistoryExpiry
open Rust Method EthereumRust.Core

inductive HistoryExpiryError where
  | expiryFailed (message : String)
  | archivalError (message : String)
  | retrievalError (message : String)
  | portalNetworkError (message : String)
  | pruningError (message : String)
  deriving DecidableEq, Repr

abbrev SystemTime := Int

abbrev Duration := Nat

/-- The seconds of a `SystemTime` are an `i64`. -/
def secondsBound : Nat := 2 ^ 63

def nanosPerSecond : Nat := 1000000000

def SystemTime.sub (t : SystemTime) (d : Duration) : Checked SystemTime :=
  if -(secondsBound * nanosPerSecond : Nat) ≤ t - d then .ok (t - d) else .error .assertion

def SystemTime.ofSecs (secs : UInt64) : Option SystemTime :=
  if secs.toNat < secondsBound then some (secs.toNat * nanosPerSecond : Nat) else none

inductive ExpiryPolicy where
  | ageBased (maxAge : Duration)
  | blockBased (blocksToKeep : UInt64)
  | sizeBased (maxSizeGb : UInt64)
  | hybrid (maxAge : Duration) (maxBlocks maxSizeGb : UInt64)
  | scheduled (cronExpression : String)
  deriving DecidableEq, Repr

def ExpiryPolicy.default : ExpiryPolicy :=
  .hybrid (365 * 24 * 60 * 60 * nanosPerSecond) 1000000 100

structure ExpiryConfig where
  expiryPeriod : Duration
  minBlocksRetained : UInt64
  archiveBeforeExpiry : Bool
  portalDistribution : Bool
  policy : ExpiryPolicy

def ExpiryConfig.default : ExpiryConfig where
  expiryPeriod := 365 * 24 * 60 * 60 * nanosPerSecond
  minBlocksRetained := 128
  archiveBeforeExpiry := true
  portalDistribution := true
  policy := .default

structure Storage where
  latestBlockNumber : UInt64
  blockByNumber : UInt64 → Option Block
  totalSize : UInt64
  blockSize : UInt64 → Option UInt64

structure PruneResult where
  blocksPruned : UInt64
  bytesFreed : UInt64

structure ExpiryState where
  lastExpiredBlock : UInt64
  totalExpiredBlocks : UInt64
  totalExpiredSize : UInt64

structure ExpiryMetrics where
  blocksExpired : UInt64
  bytesFreed : UInt64
  archivalSuccess : UInt64
  archivalFailures : UInt64

inductive Event where
  | archived (blocks : List Block)
  | archivalFailed (blocks : List Block)
  | distributed (block : Block)
  | pruning (blockNumbers : List UInt64)
  deriving DecidableEq

/-- What a run changes: the fields of the manager, and the calls it has made. -/
structure World where
  storageCalls : Nat
  archiveCalls : Nat
  events : List Event
  expiryState : ExpiryState
  metrics : ExpiryMetrics

/-- The manager, with what the components around it answer during a run. -/
structure HistoryExpiryManager where
  config : ExpiryConfig
  storage : Storage
  storageFailure : Nat → Option String
  archivalBackend : Nat → List Block → Except HistoryExpiryError String
  pruningEngine : List UInt64 → Except HistoryExpiryError PruneResult
  now : SystemTime
  upcoming : String → Except String (Option SystemTime)

abbrev Run := Method World HistoryExpiryError

def bytesPerGb : UInt64 := 1073741824

def numbersBelow (n : UInt64) : List UInt64 := (List.range n.toNat).map UInt64.ofNat

namespace HistoryExpiryManager
variable (self : HistoryExpiryManager)

def ask (answer : α) : Run (Except String α) := fun world =>
  .ok ((self.storageFailure world.storageCalls).elim (.ok answer) .error)
    { world with storageCalls := world.storageCalls + 1 }

/-- `.map_err(|e| HistoryExpiryError::ExpiryFailed(e.to_string()))?` on a call of the storage. -/
def askOrFail (answer : α) : Run α := do
  match ← self.ask answer with
  | .ok a => return a
  | .error e => fail (.expiryFailed e)

def getLatestBlockNumber : Run UInt64 := self.askOrFail self.storage.latestBlockNumber

def getTotalSize : Run UInt64 := self.askOrFail self.storage.totalSize

def getBlockByNumber (blockNum : UInt64) : Run (Option Block) := do
  match ← self.ask (self.storage.blockByNumber blockNum) with
  | .ok block => return block
  | .error _ => return none

def getBlockSize (blockNum : UInt64) : Run (Option UInt64) := do
  match ← self.ask (self.storage.blockSize blockNum) with
  | .ok size => return size
  | .error _ => return none

/-- The loop of `identify_by_age`: it stops at the first block that is young enough. -/
def agedBlocks (cutoffTime : SystemTime) : List UInt64 → Run (List UInt64)
  | [] => return []
  | blockNum :: rest => do
    match ← self.getBlockByNumber blockNum with
    | none => agedBlocks cutoffTime rest
    | some block =>
      match SystemTime.ofSecs block.header.timestamp with
      | none => agedBlocks cutoffTime rest
      | some blockTime =>
        if blockTime < cutoffTime then return blockNum :: (← agedBlocks cutoffTime rest)
        else return []

def identifyByAge (maxAge : Duration) : Run (List UInt64) := do
  let cutoffTime ← SystemTime.sub self.now maxAge
  let latestBlock ← self.getLatestBlockNumber
  if self.config.minBlocksRetained < latestBlock then
    let earliestToCheck ← subU64 latestBlock self.config.minBlocksRetained
    self.agedBlocks cutoffTime (numbersBelow earliestToCheck)
  else return []

def identifyByBlockCount (blocksToKeep : UInt64) : Run (List UInt64) := do
  let latestBlock ← self.getLatestBlockNumber
  let blocksToKeep := max blocksToKeep self.config.minBlocksRetained
  if latestBlock ≤ blocksToKeep then return []
  else return numbersBelow (← subU64 latestBlock blocksToKeep)

def freeingBlocks (sizeToFree : UInt64) : Nat → UInt64 → UInt64 → Run (List UInt64)
  | 0, _, _ => return []
  | fuel + 1, freedSize, blockNum =>
    if freedSize < sizeToFree then do
      let size ← self.getBlockSize blockNum
      let freedSize ← addU64 freedSize (size.getD 0)
      let next ← addU64 blockNum 1
      let latest ← self.getLatestBlockNumber
      let left ← subU64 latest next
      let taken := (size.map fun _ => blockNum).toList
      if left < self.config.minBlocksRetained then return taken
      else return taken ++ (← freeingBlocks sizeToFree fuel freedSize next)
    else return []

/-- `identify_by_size` behind the conversion to bytes. The subtraction from the latest block panics
behind it, so the loop has no more turns than the chain has blocks. -/
def identifyOverSize (maxSizeBytes : UInt64) : Run (List UInt64) := do
  let currentSize ← self.getTotalSize
  if currentSize ≤ maxSizeBytes then return []
  else
    let sizeToFree ← subU64 currentSize maxSizeBytes
    self.freeingBlocks sizeToFree (self.storage.latestBlockNumber.toNat + 1) 0 0

def identifyBySize (maxSizeGb : UInt64) : Run (List UInt64) := do
  let maxSizeBytes ← mulU64 maxSizeGb bytesPerGb
  self.identifyOverSize maxSizeBytes

def identifyHybrid (maxAge : Duration) (maxBlocks maxSizeGb : UInt64) : Run (List UInt64) := do
  let byAge ← self.identifyByAge maxAge
  let byCount ← self.identifyByBlockCount maxBlocks
  let bySize ← self.identifyBySize maxSizeGb
  return (Batches.sortByKey UInt64.toNat (byAge ++ byCount ++ bySize)).destutter (· ≠ ·)

def identifyBySchedule (cronExpression : String) : Run (List UInt64) := do
  match self.upcoming cronExpression with
  | .error e => fail (.expiryFailed ("Invalid cron: " ++ e))
  | .ok (some next) =>
    if next ≤ self.now then self.identifyByAge self.config.expiryPeriod else return []
  | .ok none => return []

def identifyBlocksToExpire : Run (List UInt64) :=
  match self.config.policy with
  | .ageBased maxAge => self.identifyByAge maxAge
  | .blockBased blocksToKeep => self.identifyByBlockCount blocksToKeep
  | .sizeBased maxSizeGb => self.identifyBySize maxSizeGb
  | .hybrid maxAge maxBlocks maxSizeGb => self.identifyHybrid maxAge maxBlocks maxSizeGb
  | .scheduled cronExpression => self.identifyBySchedule cronExpression

def readBlocks : List UInt64 → Run (List Block)
  | [] => return []
  | blockNum :: rest => do
    match ← self.getBlockByNumber blockNum with
    | none => readBlocks rest
    | some block => return block :: (← readBlocks rest)

def archiveChunk (chunk : List UInt64) (blocks : List Block) : Run Unit := update fun world =>
  match self.archivalBackend world.archiveCalls blocks with
  | .ok _ => { world with
      archiveCalls := world.archiveCalls + 1
      events := world.events ++ [.archived blocks]
      metrics.archivalSuccess := world.metrics.archivalSuccess + .ofNat chunk.length }
  | .error _ => { world with
      archiveCalls := world.archiveCalls + 1
      events := world.events ++ [.archivalFailed blocks]
      metrics.archivalFailures := world.metrics.archivalFailures + .ofNat chunk.length }

def archiveChunks : List (List UInt64) → Run Unit
  | [] => return ()
  | chunk :: chunks => do
    let blocks ← self.readBlocks chunk
    self.archiveChunk chunk blocks
    archiveChunks chunks

def archiveBlocks (blockNumbers : List UInt64) : Run Unit :=
  self.archiveChunks (Blocks.chunks 100 blockNumbers)

def distributeToPortal : List UInt64 → Run Unit
  | [] => return ()
  | blockNum :: rest => do
    match ← self.getBlockByNumber blockNum with
    | none => distributeToPortal rest
    | some block =>
      update fun world => { world with events := world.events ++ [.distributed block] }
      distributeToPortal rest

def pruneBlocks (blockNumbers : List UInt64) : Run PruneResult := do
  update fun world => { world with events := world.events ++ [.pruning blockNumbers] }
  result (self.pruningEngine blockNumbers)

/-- `perform_expiry` as far as it calls other components: the numbers it has pruned, if any. -/
def expireBlocks : Run (Option (List UInt64 × PruneResult)) := do
  let blocksToExpire ← self.identifyBlocksToExpire
  if blocksToExpire.isEmpty then return none
  else
    if self.config.archiveBeforeExpiry then self.archiveBlocks blocksToExpire
    if self.config.portalDistribution then self.distributeToPortal blocksToExpire
    let pruned ← self.pruneBlocks blocksToExpire
    return some (blocksToExpire, pruned)

def recordPruned (blocksToExpire : List UInt64) (pruned : PruneResult) : Run Unit := do
  update fun world => { world with
    metrics.blocksExpired := world.metrics.blocksExpired + pruned.blocksPruned
    metrics.bytesFreed := world.metrics.bytesFreed + pruned.bytesFreed
    expiryState.lastExpiredBlock :=
      blocksToExpire.getLast?.getD world.expiryState.lastExpiredBlock }
  let state ← read World.expiryState
  let totalExpiredBlocks ← addU64 state.totalExpiredBlocks pruned.blocksPruned
  let totalExpiredSize ← addU64 state.totalExpiredSize pruned.bytesFreed
  update fun world => { world with
    expiryState.totalExpiredBlocks := totalExpiredBlocks
    expiryState.totalExpiredSize := totalExpiredSize }

def performExpiry : Run Unit := do
  match ← self.expireBlocks with
  | none => return ()
  | some (blocksToExpire, pruned) => recordPruned blocksToExpire pruned

end HistoryExpiryManager

end EthereumRust.HistoryExpiry
