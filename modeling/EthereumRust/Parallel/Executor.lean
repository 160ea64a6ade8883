import EthereumRust.Lib.Greedy
import EthereumRust.Parallel.Graph

/-!
# Committing results (`crates/parallel-execution`)

`validate_and_commit` groups the results of a batch by conflicts of their access sets, and commits,
retries, aborts or merges them. A result that is cloned into a group keeps the position that it has
in the input, and so does what becomes of it; `commits` lists the positions of the results whose
changes were applied. These positions are not in the source. Neither is `drawn`, the number of
random values drawn so far; the values are a parameter. The `StateChanges` are those of
`state_manager.rs`, which its functions take; those of `executor.rs` have other fields. An entry
list stands for the map of a result's changes, in the order of its iteration.
-/

namespace EthereumRust.Parallel
open Rust Method

structure AccessSet where
  reads : HashMap Address (Finset H256)
  writes : HashMap Address (HashMap H256 H256)
  creates : Finset Address
  deletes : Finset Address

namespace AccessSet

def new : AccessSet := ⟨∅, ∅, ∅, ∅⟩

def addRead (self : AccessSet) (address : Address) (slot : H256) : AccessSet :=
  { self with
    reads := self.reads.insert address (insert slot ((self.reads.lookup address).getD ∅)) }

def addWrite (self : AccessSet) (address : Address) (slot value : H256) : AccessSet :=
  { self with
    writes := self.writes.insert address (((self.writes.lookup address).getD ∅).insert slot value) }

end AccessSet

def conflicts (set1 set2 : AccessSet) : Bool :=
  -- read and write
  decide (∃ address ∈ set1.reads.keys, ∃ slots1 ∈ set1.reads.lookup address,
    ∃ writes2 ∈ set2.writes.lookup address, ∃ slot ∈ slots1, slot ∈ writes2) ||
  -- write and read
  decide (∃ address ∈ set1.writes.keys, ∃ writes1 ∈ set1.writes.lookup address,
    ∃ slots2 ∈ set2.reads.lookup address, ∃ slot ∈ writes1.keys, slot ∈ slots2) ||
  -- write and write
  decide (∃ address ∈ set1.writes.keys, ∃ writes1 ∈ set1.writes.lookup address,
    ∃ writes2 ∈ set2.writes.lookup address, ∃ slot ∈ writes1.keys, slot ∈ writes2) ||
  decide (¬Disjoint set1.creates set2.deletes) || decide (¬Disjoint set1.deletes set2.creates) ||
  decide (¬Disjoint set1.creates set2.creates)

structure BalanceChange where
  amount : U256
  isDecrease : Bool

structure StateChanges where
  nonce : Option U256
  balanceChange : Option BalanceChange
  storage : HashMap H256 H256

structure AccountState where
  nonce : U256
  balance : U256
  codeHash : H256
  storage : HashMap H256 H256

def AccountState.default : AccountState := ⟨0, 0, H256.zero, ∅⟩

/-- `StateManager`, without its snapshots. -/
abbrev StateManager := HashMap Address AccountState

namespace StateManager

def canApply (self : StateManager) (address : Address) (changes : StateChanges) : Bool :=
  match self.lookup address with
  | none => true
  | some account =>
    if changes.nonce.any (· < account.nonce) then false
    else if changes.balanceChange.any fun change =>
      change.isDecrease && account.balance < change.amount then
      false
    else true

def applyChange (account : AccountState) (change : StateChanges) : AccountState where
  nonce := change.nonce.getD account.nonce
  balance :=
    match change.balanceChange with
    | none => account.balance
    | some balanceChange =>
      if balanceChange.isDecrease then U256.saturatingSub account.balance balanceChange.amount
      else U256.saturatingAdd account.balance balanceChange.amount
  codeHash := account.codeHash
  -- the slots of the change are inserted one by one
  storage := change.storage ∪ account.storage

def applyChanges (self : StateManager) (changes : List (Address × StateChanges)) : StateManager :=
  changes.foldl (fun self change =>
    self.insert change.1 (applyChange ((self.lookup change.1).getD .default) change.2)) self

end StateManager

/-- The receipt that `simulate_execution` makes; the crate that should define the type does not. -/
structure Receipt where
  transactionHash : H256
  transactionIndex : UInt64
  blockHash : H256
  blockNumber : Nat
  fromAddress : Address
  toAddress : Option Address
  cumulativeGasUsed : U256
  gasUsed : Option U256
  contractAddress : Option Address
  status : Option U256
  stateRoot : Option H256

structure TransactionResult where
  txIndex : Nat
  receipt : Receipt
  accessSet : AccessSet
  stateChanges : List (Address × StateChanges)

structure ExecutedTransaction where
  txHash : H256
  receipt : Receipt
  accessSet : AccessSet

structure FailedTransaction where
  txHash : H256
  error : String
  canRetry : Bool

def toExecutedTx (result : TransactionResult) : ExecutedTransaction where
  txHash := result.receipt.transactionHash
  receipt := result.receipt
  accessSet := result.accessSet

def toFailedTx (result : TransactionResult) (error : String) : FailedTransaction where
  txHash := result.receipt.transactionHash
  error
  canRetry := true

def ParallelExecutionError.message : ParallelExecutionError → String
  | .executionFailed message => "Execution failed: " ++ message
  | .conflictDetected message => "Conflict detected: " ++ message
  | .schedulingError message => "Scheduling error: " ++ message
  | .stateError message => "State error: " ++ message
  | .validationFailed message => "Validation failed: " ++ message

inductive ConflictResolution where
  | retry
  | abort
  | merge
  deriving DecidableEq, Repr

structure ExecutorMetrics where
  totalExecuted : UInt64
  conflictsDetected : UInt64
  retries : UInt64

structure ParallelExecutor where
  conflictResolution : ConflictResolution
  stateManager : StateManager
  metrics : ExecutorMetrics
  drawn : Nat
  commits : List Nat

def ParallelExecutor.new (conflictResolution : ConflictResolution) : ParallelExecutor :=
  ⟨conflictResolution, ∅, ⟨0, 0, 0⟩, 0, []⟩

abbrev Tracked (α : Type) := Nat × α

/-- The values of `H256::random` and `Address::random`, by the number of values drawn before. -/
class Random where
  h256 : Nat → H256
  address : Nat → Address

structure Ledger where
  executed : List (Tracked ExecutedTransaction)
  failed : List (Tracked FailedTransaction)
  retryQueue : List (Tracked TransactionResult)

namespace ParallelExecutor

abbrev Run := Method ParallelExecutor ParallelExecutionError

def draw {α : Type} (values : Nat → α) : Run α := do
  let n ← read (·.drawn)
  update fun self => { self with drawn := n + 1 }
  return values n

def validateResult (self : ParallelExecutor) (result : TransactionResult) : Bool :=
  result.stateChanges.all fun change => self.stateManager.canApply change.1 change.2

def commitResult (result : Tracked TransactionResult) : Run Unit :=
  update fun self => { self with
    stateManager := self.stateManager.applyChanges result.2.stateChanges
    metrics := { self.metrics with totalExecuted := self.metrics.totalExecuted + 1 }
    commits := self.commits ++ [result.1] }

section
variable [Random]

def simulateExecution (txIndex : Nat) : Run (Receipt × AccessSet) := do
  let first ← draw Random.address
  let second ← draw Random.address
  let accessSet := AccessSet.new.addRead first (← draw Random.h256)
  let accessSet := accessSet.addWrite first (← draw Random.h256) (← draw Random.h256)
  let accessSet := accessSet.addRead second (← draw Random.h256)
  let accessSet := accessSet.addWrite second (← draw Random.h256) (← draw Random.h256)
  let receipt := {
    transactionHash := ← draw Random.h256
    transactionIndex := .ofNat txIndex
    blockHash := H256.zero
    blockNumber := 0
    fromAddress := ← draw Random.address
    toAddress := some (← draw Random.address)
    cumulativeGasUsed := 21000
    gasUsed := some 21000
    contractAddress := none
    status := some 1
    stateRoot := none }
  return (receipt, accessSet)

def executeSingleTransaction (txIndex : Nat) : Run TransactionResult := do
  let (receipt, accessSet) ← simulateExecution txIndex
  return { txIndex, receipt, accessSet, stateChanges := [] }

def retryTransaction (result : Tracked TransactionResult) : Run ExecutedTransaction := do
  let newResult ← executeSingleTransaction result.2.txIndex
  if ← read (·.validateResult newResult) then
    commitResult (result.1, newResult)
    return toExecutedTx newResult
  else fail (.executionFailed "Retry failed")

end

def conflictAt (results : List TransactionResult) : Nat → Nat → Bool :=
  Greedy.at2 (fun result other => conflicts result.accessSet other.accessSet) results

def tracked (results : List TransactionResult) (group : List Nat) :
    List (Tracked TransactionResult) :=
  group.filterMap fun i => results[i]?.map fun result => (i, result)

def groupByConflicts (results : List TransactionResult) :
    Run (List (List (Tracked TransactionResult))) := do
  let groups := Greedy.collect (conflictAt results) results.length
  let detected := (groups.map fun group => group.length - 1).sum
  update fun self => { self with
    metrics := { self.metrics with
      conflictsDetected := self.metrics.conflictsDetected + .ofNat detected } }
  return groups.map (tracked results)

def mergeResults (results : List (Tracked TransactionResult)) :
    Option (Tracked TransactionResult) :=
  match results with
  | [result] => some result
  | _ => none

def commitExecuted (ledger : Ledger) (result : Tracked TransactionResult) : Run Ledger := do
  commitResult result
  return { ledger with executed := ledger.executed ++ [(result.1, toExecutedTx result.2)] }

def commitOrQueue (ledger : Ledger) (result : Tracked TransactionResult) : Run Ledger := do
  if ← read (·.validateResult result.2) then commitExecuted ledger result
  else return { ledger with retryQueue := ledger.retryQueue ++ [result] }

def resolveGroup (ledger : Ledger) (group : List (Tracked TransactionResult)) : Run Ledger := do
  match ← read (·.conflictResolution) with
  | .retry => group.foldlM commitOrQueue ledger
  | .abort =>
    let hasConflict ← read fun self => group.any fun result => !self.validateResult result.2
    if hasConflict then
      return { ledger with
        failed := ledger.failed ++
          group.map fun result => (result.1, toFailedTx result.2 "Conflict detected") }
    else group.foldlM commitExecuted ledger
  | .merge =>
    match mergeResults group with
    | some result => commitExecuted ledger result
    | none => return ledger

section
variable [Random]

def retryQueued (ledger : Ledger) (result : Tracked TransactionResult) : Run Ledger := do
  match ← attempt (retryTransaction result) with
  | .ok retried => return { ledger with executed := ledger.executed ++ [(result.1, retried)] }
  | .error e =>
    let failed := { txHash := ← draw Random.h256, error := e.message, canRetry := false }
    return { ledger with failed := ledger.failed ++ [(result.1, failed)] }

def retryFailed (ledger : Ledger) : Run Ledger := do
  let conflictResolution ← read (·.conflictResolution)
  if !ledger.retryQueue.isEmpty && conflictResolution = .retry then
    update fun self => { self with
      metrics := { self.metrics with
        retries := self.metrics.retries + .ofNat ledger.retryQueue.length } }
    ledger.retryQueue.foldlM retryQueued ledger
  else return ledger

def validateAndCommit (results : List TransactionResult) :
    Run (List (Tracked ExecutedTransaction) × List (Tracked FailedTransaction)) := do
  let conflictGroups ← groupByConflicts results
  let ledger ← conflictGroups.foldlM resolveGroup ⟨[], [], []⟩
  let ledger ← retryFailed ledger
  return (ledger.executed, ledger.failed)

end

end ParallelExecutor

end EthereumRust.Parallel
