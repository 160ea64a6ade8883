import EthereumRust.Lib.Batches
import EthereumRust.Lib.Greedy
import EthereumRust.Parallel.Graph

/-!
# The transaction scheduler (`crates/parallel-execution`: `scheduler.rs`)

Each strategy turns a list of transactions into batches of their positions. A loop of the source is
a function of its variables and of what is left to iterate over. `chunks` panics for chunks of size
0, and `as_u64` for a nonce that does not fit.
-/

namespace EthereumRust.Parallel
open Rust

inductive SchedulingStrategy where
  | optimisticConcurrency
  | pessimisticLocking
  | timestampOrdering
  | mvcc
  | deterministic
  deriving DecidableEq, Repr

structure TransactionScheduler where
  strategy : SchedulingStrategy
  maxParallel : Nat

structure Schedule where
  batches : List (List Nat)
  currentBatch : List Nat
  deriving DecidableEq

namespace Schedule

def new : Schedule := ⟨[], []⟩

def addBatch (self : Schedule) (batch : List Nat) : Schedule :=
  if batch.isEmpty then self else { self with batches := self.batches ++ [batch] }

def addToCurrentBatch (self : Schedule) (txIndex : Nat) : Schedule :=
  { self with currentBatch := self.currentBatch ++ [txIndex] }

def finalizeCurrentBatch (self : Schedule) : Schedule :=
  if self.currentBatch.isEmpty then self
  else { batches := self.batches ++ [self.currentBatch], currentBatch := [] }

end Schedule

abbrev Scheduled := Checked (Except ParallelExecutionError Schedule)

def mayConflict (tx1 tx2 : Transaction) : Bool :=
  if tx1.fromAddress = tx2.fromAddress then true
  else
    match tx1.toAddress, tx2.toAddress with
    | some to1, some to2 => if to1 = to2 then true else false
    | _, _ => false

def conflictAt (transactions : List Transaction) : Nat → Nat → Bool :=
  Greedy.at2 mayConflict transactions

def analyzeConflicts (transactions : List Transaction) : List (List Nat) :=
  Greedy.collect (conflictAt transactions) transactions.length

def extractAddresses (tx : Transaction) : List Address :=
  match tx.toAddress with
  | some recipient => [tx.fromAddress, recipient]
  | none => [tx.fromAddress]

abbrev VersionMap := HashMap Address (List Nat)

/-- `version_map.entry(addr).or_insert_with(Vec::new).push(i)`. -/
def VersionMap.push (versionMap : VersionMap) (address : Address) (i : Nat) : VersionMap :=
  versionMap.insert address ((versionMap.lookup address).getD [] ++ [i])

def versionMap (transactions : List Transaction) : VersionMap :=
  transactions.zipIdx.foldl
    (fun versions tx =>
      (extractAddresses tx.1).foldl (fun versions address => versions.push address tx.2) versions) ∅

def hasVersionConflict (tx1 tx2 : Nat) (versionMap : VersionMap) : Bool :=
  decide (∃ address ∈ versionMap.keys, ∃ txs ∈ versionMap.lookup address, tx1 ∈ txs ∧ tx2 ∈ txs)

def computeTimestamp (tx : Transaction) : Checked UInt64 := tx.nonce.asU64

namespace TransactionScheduler

variable (self : TransactionScheduler)

def optimisticLoop (depGraph : DependencyGraph) :
    Schedule → List Nat → Finset Nat → List Nat → Schedule
  | schedule, currentBatch, _, [] =>
    if currentBatch.isEmpty then schedule else schedule.addBatch currentBatch
  | schedule, currentBatch, processed, txIndex :: sorted =>
    let depsSatisfied := decide (∀ dep ∈ depGraph.getDependencies txIndex, dep ∈ processed)
    if depsSatisfied && currentBatch.length < self.maxParallel then
      optimisticLoop depGraph schedule (currentBatch ++ [txIndex]) processed sorted
    else if currentBatch.isEmpty then optimisticLoop depGraph schedule [txIndex] processed sorted
    else
      optimisticLoop depGraph (schedule.addBatch currentBatch) [txIndex]
        (processed ∪ currentBatch.toFinset) sorted

def weight (graph : DiGraph Nat) (node : Nat) : Checked Nat :=
  match graph.weights[node]? with
  | some txIndex => .ok txIndex
  | none => .error .slice

def scheduleOptimistic [Toposort] (depGraph : DependencyGraph) (_ : List Transaction) : Scheduled :=
  match toposort depGraph.graph with
  | none => .ok (.error (.schedulingError "Cycle detected in dependency graph"))
  | some sorted => do
    let sorted ← sorted.mapM (weight depGraph.graph)
    return .ok (self.optimisticLoop depGraph .new [] ∅ sorted)

def scheduleGroup (schedule : Schedule) (group : List Nat) : Schedule :=
  match group with
  | [txIndex] => schedule.addToCurrentBatch txIndex
  | _ =>
    group.foldl (fun schedule txIndex => schedule.addBatch [txIndex]) schedule.finalizeCurrentBatch

def schedulePessimistic (_ : DependencyGraph) (transactions : List Transaction) : Scheduled :=
  .ok (.ok ((analyzeConflicts transactions).foldl scheduleGroup .new).finalizeCurrentBatch)

def timestampLoop : Schedule → List Nat → UInt64 → List (Nat × UInt64) → Schedule
  | schedule, currentBatch, _, [] =>
    if currentBatch.isEmpty then schedule else schedule.addBatch currentBatch
  | schedule, currentBatch, lastTimestamp, (txIndex, timestamp) :: timestamps =>
    if lastTimestamp < timestamp ∨ self.maxParallel ≤ currentBatch.length then
      if currentBatch.isEmpty then timestampLoop schedule [txIndex] timestamp timestamps
      else timestampLoop (schedule.addBatch currentBatch) [txIndex] timestamp timestamps
    else timestampLoop schedule (currentBatch ++ [txIndex]) timestamp timestamps

def scheduleTimestamp (_ : DependencyGraph) (transactions : List Transaction) : Scheduled := do
  let timestamps ← transactions.zipIdx.mapM fun tx => return (tx.2, ← computeTimestamp tx.1)
  let timestamps := Batches.sortByKey (fun entry => entry.2.toNat) timestamps
  return .ok (self.timestampLoop .new [] 0 timestamps)

def mvccLoop (versionMap : VersionMap) : Schedule → Finset Nat → List Nat → List Nat → Schedule
  | schedule, _, currentBatch, [] =>
    if currentBatch.isEmpty then schedule else schedule.addBatch currentBatch
  | schedule, scheduled, currentBatch, i :: rest =>
    if i ∈ scheduled then mvccLoop versionMap schedule scheduled currentBatch rest
    else
      let compatible := currentBatch.all fun j => !hasVersionConflict i j versionMap
      if compatible && currentBatch.length < self.maxParallel then
        mvccLoop versionMap schedule (insert i scheduled) (currentBatch ++ [i]) rest
      else if currentBatch.isEmpty then mvccLoop versionMap schedule (insert i scheduled) [i] rest
      else mvccLoop versionMap (schedule.addBatch currentBatch) (insert i scheduled) [i] rest

def scheduleMvcc (_ : DependencyGraph) (transactions : List Transaction) : Scheduled :=
  .ok (.ok (self.mvccLoop (versionMap transactions) .new ∅ [] (List.range transactions.length)))

def hashKey (transactions : List Transaction) (i : Nat) : Nat :=
  match transactions[i]? with
  | some tx => ofBigEndian tx.hash.toList
  | none => 0

def chunks (size : Nat) (items : List Nat) : Checked (List (List Nat)) :=
  if size = 0 then .error .assertion
  else .ok (Batches.cut (fun _ chunk _ => chunk.length < size) [] [] items)

def scheduleDeterministic (_ : DependencyGraph) (transactions : List Transaction) : Scheduled := do
  let txIndices := Batches.sortByKey (hashKey transactions) (List.range transactions.length)
  let chunks ← chunks self.maxParallel txIndices
  return .ok (chunks.foldl Schedule.addBatch .new)

def schedule [Toposort] (depGraph : DependencyGraph) (transactions : List Transaction) :
    Scheduled :=
  match self.strategy with
  | .optimisticConcurrency => self.scheduleOptimistic depGraph transactions
  | .pessimisticLocking => schedulePessimistic depGraph transactions
  | .timestampOrdering => self.scheduleTimestamp depGraph transactions
  | .mvcc => self.scheduleMvcc depGraph transactions
  | .deterministic => self.scheduleDeterministic depGraph transactions

end TransactionScheduler

end EthereumRust.Parallel
