import EthereumRust.Parallel.Executor

/-!
# What becomes of the results

Every result that `validate_and_commit` takes out of a group is accounted for once, as executed or
as failed, and is committed once if it is executed (`Balanced`). A result is lost or accounted for
twice only through the groups: a result that conflicts with the first members of two groups is in
both, and a group of several results is dropped when it should be merged.
-/

namespace EthereumRust.Parallel

open Rust Method List

namespace ParallelExecutor

def counted (resolution : ConflictResolution) (group : List (Tracked TransactionResult)) :
    List Nat :=
  match resolution with
  | .retry | .abort => group.map Prod.fst
  | .merge => if group.length = 1 then group.map Prod.fst else []

structure Balanced (start : ParallelExecutor) (seen : List Nat) (ledger : Ledger)
    (executor : ParallelExecutor) : Prop where
  resolution : executor.conflictResolution = start.conflictResolution
  commits : executor.commits = start.commits ++ ledger.executed.map Prod.fst
  sources : (ledger.executed.map Prod.fst ++ ledger.failed.map Prod.fst ++
    ledger.retryQueue.map Prod.fst).Perm seen
  queue : start.conflictResolution ≠ .retry → ledger.retryQueue = []

theorem perm_append_middle (l₁ : List Nat) : (l₁ ++ l ++ l₂).Perm (l₁ ++ l₂ ++ l) := by
  rw [append_assoc, append_assoc]
  exact perm_append_comm.append_left l₁

theorem commitExecuted_sat (H : Balanced start seen ledger s) (res : Tracked TransactionResult) :
    Sat (commitExecuted ledger res) s (Balanced start (seen ++ [res.1]))
      (fun _ _ => False) (fun _ => False) := by
  refine ⟨H.resolution, ?_, ?_, H.queue⟩
  · rw [map_append, ← append_assoc, ← H.commits]
    rfl
  · refine .trans ?_ (H.sources.append_right _)
    rw [map_append]
    -- past what has failed, and then past what is queued
    exact ((perm_append_middle ..).append_right _).trans (perm_append_middle ..)

theorem commitOrQueue_sat (hret : start.conflictResolution = .retry)
    (H : Balanced start seen ledger s) (res : Tracked TransactionResult) :
    Sat (commitOrQueue ledger res) s (Balanced start (seen ++ [res.1]))
      (fun _ _ => False) (fun _ => False) := by
  rw [commitOrQueue, sat_bind, sat_read]
  split_ifs
  · exact commitExecuted_sat H res
  · refine ⟨H.resolution, H.commits, ?_, fun hne => absurd hret hne⟩
    refine .trans ?_ (H.sources.append_right _)
    rw [map_append, ← append_assoc]
    rfl

theorem foldlM_sat {f : Ledger → Tracked TransactionResult → Run Ledger}
    (hf : ∀ seen ledger s res, Balanced start seen ledger s →
      Sat (f ledger res) s (Balanced start (seen ++ [res.1])) (fun _ _ => False) (fun _ => False))
    (H : Balanced start seen ledger s) (group : List (Tracked TransactionResult)) :
    Sat (group.foldlM f ledger) s (Balanced start (seen ++ group.map Prod.fst))
      (fun _ _ => False) (fun _ => False) := by
  refine sat_foldlM (I := fun ys => Balanced start (seen ++ ys.map Prod.fst))
    (fun ys res zs _ ledger s H => ?_) ((append_nil seen).symm ▸ H)
  rw [map_append, ← append_assoc]
  exact hf _ _ _ _ H

theorem resolveGroup_sat (H : Balanced start seen ledger self) :
    Sat (resolveGroup ledger group) self
      (Balanced start (seen ++ counted start.conflictResolution group))
      (fun _ _ => False) (fun _ => False) := by
  rw [resolveGroup, sat_bind, sat_read, H.resolution]
  cases hres : start.conflictResolution with
  | retry => exact foldlM_sat (fun _ _ _ result H => commitOrQueue_sat hres H result) H group
  | abort =>
    rw [sat_bind, sat_read]
    split_ifs
    · refine ⟨H.resolution, H.commits, ?_, H.queue⟩
      refine .trans ?_ (H.sources.append_right _)
      have hfst : (group.map fun result =>
          (result.1, toFailedTx result.2 "Conflict detected")).map Prod.fst =
            group.map Prod.fst := by
        rw [map_map]
        rfl
      rw [map_append, hfst, ← append_assoc]
      exact perm_append_middle ..
    · exact foldlM_sat (fun _ _ _ result H => commitExecuted_sat H result) H group
  | merge =>
    by_cases hlen : group.length = 1
    · obtain ⟨result, rfl⟩ := length_eq_one_iff.mp hlen
      exact commitExecuted_sat H result
    · have hmer : mergeResults group = none := by
        unfold mergeResults
        split
        next => exact absurd rfl hlen
        next => rfl
      rw [hmer, counted, if_neg hlen, append_nil]
      exact H

section
variable [Random]

theorem executeSingleTransaction_sat :
    Sat (executeSingleTransaction txIndex) s
      (fun res executor => res.stateChanges = [] ∧ ∃ n, executor = { s with drawn := n })
      (fun _ _ => False) (fun _ => False) := by
  exact ⟨rfl, _, rfl⟩

theorem retryTransaction_sat (res : Tracked TransactionResult) :
    Sat (retryTransaction res) s
      (fun _ executor => executor.conflictResolution = s.conflictResolution ∧
        executor.commits = s.commits ++ [res.1])
      (fun _ _ => False) (fun _ => False) := by
  rw [retryTransaction, sat_bind]
  refine (executeSingleTransaction_sat).mono ?_ (fun _ _ => id) (fun _ => id)
  rintro newResult executor ⟨hcha, n, rfl⟩
  have hvld : validateResult { s with drawn := n } newResult = true := by
    rw [validateResult, hcha]
    rfl
  rw [sat_bind, sat_read, hvld]
  exact ⟨rfl, rfl⟩

structure Settled (start : ParallelExecutor) (seen : List Nat) (ledger : Ledger)
    (executor : ParallelExecutor) : Prop where
  commits : executor.commits = start.commits ++ ledger.executed.map Prod.fst
  sources : (ledger.executed.map Prod.fst ++ ledger.failed.map Prod.fst).Perm seen

theorem retryQueued_sat (H : Settled start seen ledger s) (res : Tracked TransactionResult) :
    Sat (retryQueued ledger res) s (Settled start (seen ++ [res.1]))
      (fun _ _ => False) (fun _ => False) := by
  rw [retryQueued, sat_bind, sat_attempt]
  refine (retryTransaction_sat res).mono ?_ (fun _ _ => False.elim) (fun _ => id)
  rintro retried executor ⟨-, hcom⟩
  refine ⟨?_, .trans ?_ (H.sources.append_right _)⟩
  · rw [hcom, H.commits, map_append, append_assoc]
    rfl
  · rw [map_append]
    exact perm_append_middle ..

theorem retryFailed_sat (H : Balanced start seen ledger s) :
    Sat (retryFailed ledger) s (Settled start seen) (fun _ _ => False) (fun _ => False) := by
  rw [retryFailed, sat_bind, sat_read, H.resolution]
  split_ifs with hret
  · let base := ledger.executed.map Prod.fst ++ ledger.failed.map Prod.fst
    rw [sat_bind]
    refine (sat_foldlM (I := fun ys => Settled start (base ++ ys.map Prod.fst))
      (fun ys res zs _ ledger s H => ?_) ?_).mono ?_ (fun _ _ => id) (fun _ => id)
    · rw [map_append, ← append_assoc]
      exact retryQueued_sat H res
    · exact ⟨H.commits, (append_nil base).symm ▸ .refl _⟩
    · intro ledger' executor H'
      exact ⟨H'.commits, H'.sources.trans H.sources⟩
  · have hque : ledger.retryQueue = [] := by
      by_contra hne
      refine hret ?_
      rw [Bool.and_eq_true, Bool.not_eq_true', decide_eq_true_eq]
      refine ⟨Bool.eq_false_iff.mpr (mt isEmpty_iff.mp hne), ?_⟩
      by_contra hoth
      exact hne (H.queue hoth)
    have hsou := H.sources
    rw [hque, map_nil, append_nil] at hsou
    exact ⟨H.commits, hsou⟩

theorem validateAndCommit_sat :
    Sat (validateAndCommit results) s
      (fun lists executor => executor.commits = s.commits ++ lists.1.map Prod.fst ∧
        (lists.1.map Prod.fst ++ lists.2.map Prod.fst).Perm
          (((Greedy.collect (conflictAt results) results.length).map (tracked results)).flatMap
            (counted s.conflictResolution)))
      (fun _ _ => False) (fun _ => False) := by
  have hgrp : Sat (groupByConflicts results) s
      (fun groups executor =>
        groups = (Greedy.collect (conflictAt results) results.length).map (tracked results) ∧
        Balanced s [] ⟨[], [], []⟩ executor) (fun _ _ => False) (fun _ => False) :=
    ⟨rfl, rfl, (append_nil _).symm, .nil, fun _ => rfl⟩
  rw [validateAndCommit, sat_bind]
  refine hgrp.mono ?_ (fun _ _ => id) (fun _ => id)
  rintro groups executor ⟨rfl, H⟩
  rw [sat_bind]
  refine (sat_foldlM (I := fun ys => Balanced s (ys.flatMap (counted s.conflictResolution)))
    (fun ys group zs _ ledger executor H => ?_) H).mono ?_ (fun _ _ => id) (fun _ => id)
  · rw [flatMap_append, flatMap_singleton]
    exact resolveGroup_sat H
  · intro ledger executor H
    rw [sat_bind]
    refine (retryFailed_sat H).mono (fun ledger executor H => ?_) (fun _ _ => id) (fun _ => id)
    exact ⟨H.commits, H.sources⟩

end

theorem map_fst_tracked
    (h : ∀ i ∈ group, i < results.length) : (tracked results group).map Prod.fst = group := by
  induction group with
  | nil => rfl
  | cons i group ih =>
    obtain ⟨hi, hgrp⟩ := forall_mem_cons.mp h
    rw [tracked, filterMap_cons, getElem?_eq_getElem hi]
    exact congrArg (i :: ·) (ih hgrp)

theorem flatMap_counted
    {groups : List (List Nat)} (h : ∀ group ∈ groups, ∀ i ∈ group, i < results.length) :
    (groups.map (tracked results)).flatMap (counted resolution) =
      match resolution with
      | .retry | .abort => groups.flatten
      | .merge => (groups.filter (·.length = 1)).flatten := by
  induction groups with
  | nil => cases resolution <;> rfl
  | cons group groups ih =>
    obtain ⟨hgrp, hgro⟩ := forall_mem_cons.mp h
    have hfst := map_fst_tracked hgrp
    rw [map_cons, flatMap_cons, ih hgro]
    cases resolution with
    | retry => rw [counted, hfst, flatten_cons]
    | abort => rw [counted, hfst, flatten_cons]
    | merge =>
      have hlen : (tracked results group).length = group.length := by
        rw [← length_map (f := Prod.fst), hfst]
      rw [counted, hfst, hlen, filter_cons]
      dsimp only
      by_cases hone : group.length = 1
      · rw [if_pos hone, if_pos (decide_eq_true hone), flatten_cons]
      · rw [if_neg hone, if_neg (mt of_decide_eq_true hone), nil_append]

/-- When every result is accounted for once: no result conflicts with the first members of two
groups, and for a merge no two results conflict at all. -/
def Accountable (resolution : ConflictResolution) (results : List TransactionResult) : Prop :=
  match resolution with
  | .retry | .abort => Greedy.Unshared (conflictAt results) results.length
  | .merge => ∀ i j, i < j → j < results.length → conflictAt results i j = false

theorem perm_counted_iff :
    (((Greedy.collect (conflictAt results) results.length).map (tracked results)).flatMap
      (counted resolution)).Perm (range results.length) ↔ Accountable resolution results := by
  rw [flatMap_counted fun group hgrp i hi =>
    Greedy.mem_flatten_collect_iff.mp (mem_flatten.mpr ⟨group, hgrp, hi⟩)]
  cases resolution with
  | retry => exact Greedy.perm_flatten_collect_iff
  | abort => exact Greedy.perm_flatten_collect_iff
  | merge => exact Greedy.perm_flatten_lone_iff

/-- `validate_and_commit` always returns `Ok`. It accounts for every result exactly once, as
executed or as failed, and commits none twice, exactly when the results are accountable. -/
theorem validateAndCommit_accounts_iff [Random] (s : ParallelExecutor)
    (results : List TransactionResult) :
    ∃ executed failed commits executor,
      validateAndCommit results s = .ok (executed, failed) executor ∧
      executor.commits = s.commits ++ commits ∧
      (((executed.map Prod.fst ++ failed.map Prod.fst).Perm (range results.length) ∧
        commits.Nodup) ↔
        Accountable s.conflictResolution results) := by
  obtain ⟨⟨executed, failed⟩, executor, hrun, hcom, hsou⟩ := (validateAndCommit_sat).exists_ok
  refine ⟨executed, failed, executed.map Prod.fst, executor, hrun, hcom, ?_⟩
  rw [← perm_counted_iff]
  constructor
  · intro h
    exact hsou.symm.trans h.1
  · intro h
    have hperm := hsou.trans h
    exact ⟨hperm, (hperm.nodup_iff.mpr nodup_range).of_append_left⟩

namespace Unvaried

scoped instance : Random := ⟨fun _ => H256.zero, fun _ => Address.zero⟩

end Unvaried

def writing (txIndex : Nat) (slots : List Nat) : TransactionResult where
  txIndex
  receipt :=
    ⟨H256.zero, .ofNat txIndex, H256.zero, 0, Address.zero, none, 0, none, none, none, none⟩
  accessSet := slots.foldl (fun set slot =>
    set.addWrite Address.zero (H256.ofU256 (.ofNat 256 slot)) H256.zero) .new
  stateChanges := []

def positions : Outcome ParallelExecutor ParallelExecutionError
      (List (Tracked ExecutedTransaction) × List (Tracked FailedTransaction)) →
    Option (List Nat × List Nat × List Nat)
  | .ok lists executor => some (lists.1.map Prod.fst, lists.2.map Prod.fst, executor.commits)
  | _ => none

open Unvaried in
/-- The third result writes a slot of the first and one of the second: it is executed and committed
twice. Two results that write the same slot are lost when they should be merged. -/
theorem results_unaccounted :
    positions (validateAndCommit [writing 0 [1], writing 1 [2], writing 2 [1, 2]] (new .retry)) =
        some ([0, 2, 1, 2], [], [0, 2, 1, 2]) ∧
      positions (validateAndCommit [writing 0 [1], writing 1 [1]] (new .merge)) =
        some ([], [], []) := by
  decide +kernel

end ParallelExecutor

end EthereumRust.Parallel
