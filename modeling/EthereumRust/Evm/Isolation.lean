import EthereumRust.Evm.Run
import EthereumRust.Lib.WriteLog

/-!
# What a run does to the state database

The state and the logs are written by `SSTORE` and `LOG` only, so both are determined by the opcodes
executed on the way: the state is the initial one with the stores of the run replayed. Nothing takes
a store back when the run reverts or halts.
-/

namespace EthereumRust.Evm
open Rust List Accounts

namespace Interpreter
open Loop

section
variable [StateDB S] {s : Interpreter S}

theorem Effect.state (h : Effect op s s') :
    s'.state = (s.storeEntry op).elim s.state
      fun w => StateDB.setStorage s.state s.context.address w.1 w.2 := by
  cases hent : s.storeEntry op with
  | none =>
    cases h with
    | store _ he =>
      rw [he] at hent
      cases hent
    | plain | push | jump | write | log | halt | skip => rfl
  | some w =>
    cases eq_sstore_of_storeEntry hent
    obtain ⟨w', hent', hst⟩ := h.inv
    rw [hent] at hent'
    rw [hst, hent']
    rfl

theorem Effect.logs (h : Effect op s s') : s'.logs = s.logs ++ (s.logEntry op).toList := by
  cases hent : s.logEntry op with
  | none =>
    cases h with
    | log _ he =>
      rw [he] at hent
      cases hent
    | plain | push | jump | write | store | halt | skip => exact (append_nil _).symm
  | some log =>
    obtain ⟨n, rfl⟩ := eq_log_of_logEntry hent
    obtain ⟨log', hent', hlogs⟩ := h.inv
    rw [hent] at hent'
    rw [hlogs, hent']
    rfl

theorem Effect.static (h : Effect op s s') (hsta : s.context.isStatic = true) :
    s'.state = s.state ∧ s'.logs = s.logs := by
  cases h with
  | store hno | log hno =>
    rw [hsta] at hno
    cases hno
  | plain | push | jump | write | halt | skip => exact ⟨rfl, rfl⟩

theorem Stops.logs (h : Stops s r s') (hrun : s.result = none) : r.logs = [] := by
  cases h with
  | ended =>
    rw [hrun]
    rfl
  | undefined => rfl
  | halted _ _ heff hres =>
    cases heff with
    | halt _ hlogs =>
      cases hres
      exact hlogs
    | plain | push | jump | write | store | log | skip =>
      simp only [hrun] at hres
      cases hres
  | refused | faulted => exact (handleError_spec).1

/-- The storage entries written along a path. -/
def stores (p : List (Interpreter S)) : List (H256 × H256) :=
  p.filterMap fun s => s.fetched.bind s.storeEntry

omit [StateDB S] in
theorem stores_snoc (hop : s.fetched = some op) :
    stores (p ++ [s]) = stores p ++ (s.storeEntry op).toList :=
  filterMap_fetched_snoc hop

variable [Crypto]

theorem state_of_path (H : Path turn p s₀ s) : s.state = (stores p).foldl
      (fun db w => StateDB.setStorage db s₀.context.address w.1 w.2) s₀.state := by
  induction H with
  | nil => rfl
  | snoc H hturn ih =>
    obtain ⟨op, hstep⟩ := turn_next hturn
    have hctx := reaches_context H.reaches
    rw [hstep.effect.state, hctx, ih, stores_snoc hstep.fetched, foldl_append]
    cases storeEntry _ op <;> rfl

end

section

def replayStores (db : HashMap Address Account) (address : Address)
    (writes : List (H256 × H256)) : HashMap Address Account :=
  writes.foldl (fun db w => StateDB.setStorage db address w.1 w.2) db

variable {db : HashMap Address Account}

theorem lookup_replayStores_of_ne (ha : a ≠ addr) :
    (replayStores db addr writes).lookup a = db.lookup a := by
  induction writes generalizing db with
  | nil => rfl
  | cons w writes ih =>
    calc (replayStores db addr (w :: writes)).lookup a
        = (setStorage db addr w.1 w.2).lookup a := ih
      _ = db.lookup a := lookup_setStorage_of_ne db ha w.1 w.2

theorem accountAt_replayStores (db : HashMap Address Account) (addr : Address)
    (writes : List (H256 × H256)) :
    accountAt (replayStores db addr writes) addr =
      { accountAt db addr with
        storage := WriteLog.replay (accountAt db addr).storage writes } := by
  induction writes generalizing db with
  | nil => rfl
  | cons w writes ih =>
    calc accountAt (replayStores db addr (w :: writes)) addr
        = { accountAt (setStorage db addr w.1 w.2) addr with
            storage := WriteLog.replay
              (accountAt (setStorage db addr w.1 w.2) addr).storage
              writes } := ih _
      _ = _ := by rw [accountAt_setStorage]; rfl

theorem lookup_replayStores_ne_none (h : db.lookup addr ≠ none) :
    (replayStores db addr writes).lookup addr ≠ none := by
  induction writes generalizing db with
  | nil => exact h
  | cons w writes ih =>
    change (replayStores (setStorage db addr w.1 w.2) addr writes).lookup _ ≠ none
    apply ih
    rw [lookup_setStorage]
    exact Option.some_ne_none _

/-- Writes change nothing exactly if the last one to each slot writes what was there. -/
theorem replayStores_eq_self_iff :
    replayStores db addr writes = db ↔ ∀ key value,
      WriteLog.last writes key = some value → stored db addr key = some value := by
  constructor
  · intro h key value hlast
    have hacc := accountAt_replayStores db addr writes
    rw [h] at hacc
    have hst := congrArg Account.storage hacc
    rw [stored_eq]
    exact (WriteLog.replay_eq_self_iff _).mp hst.symm key value hlast
  · intro h
    by_cases hnil : writes = []
    · rw [hnil]
      rfl
    -- some key is written, so the account is there and only its storage could differ
    obtain ⟨key, value, hlast⟩ := WriteLog.exists_last_of_ne_nil hnil
    obtain ⟨account, hacc, -⟩ := Option.bind_eq_some_iff.mp (h key value hlast)
    have hat : accountAt db addr = account := by
      rw [accountAt, hacc, Option.getD_some]
    have hst : WriteLog.replay account.storage writes = account.storage := by
      rw [WriteLog.replay_eq_self_iff]
      intro key value hlast
      rw [← hat, ← stored_eq]
      exact h key value hlast
    apply Finmap.ext_lookup
    intro a
    by_cases ha : a = addr
    · subst ha
      have hrep := accountAt_replayStores db a writes
      rw [hat, hst] at hrep
      have hthe : db.lookup a ≠ none := by
        rw [hacc]
        exact Option.some_ne_none _
      obtain ⟨account', hacc'⟩ :=
        Option.ne_none_iff_exists'.mp (lookup_replayStores_ne_none hthe)
      rw [accountAt, hacc', Option.getD_some] at hrep
      rw [hacc', hacc, hrep]
    · exact lookup_replayStores_of_ne ha

structure OnlyStorage (address : Address) (db db' : HashMap Address Account) : Prop where
  others : ∀ a, a ≠ address → db'.lookup a = db.lookup a
  balance : (Accounts.accountAt db' address).balance = (Accounts.accountAt db address).balance
  nonce : (Accounts.accountAt db' address).nonce = (Accounts.accountAt db address).nonce
  code : (Accounts.accountAt db' address).code = (Accounts.accountAt db address).code

theorem onlyStorage_replayStores : OnlyStorage addr db (replayStores db addr writes) where
  others _ ha := lookup_replayStores_of_ne ha
  balance := by rw [accountAt_replayStores]
  nonce := by rw [accountAt_replayStores]
  code := by rw [accountAt_replayStores]

variable [Crypto]

theorem state_of_run {ctx : ExecutionContext} {fuel : Nat}
    (h : run fuel (.new ctx db) = some (.ok r s)) :
    s.state = replayStores db ctx.address (stores (trace turn fuel (.new ctx db))) := by
  obtain ⟨a, H, hturn⟩ := path_trace h
  rw [(turn_done_ok hturn).frame (reaches_result rfl H.reaches)]
  exact state_of_path H

end

open Unhashed

def storeThenRevert : ExecutionContext :=
  createTestContext [0x60, 0x01, 0x60, 0x00, 0x55, 0x5f, 0x5f, 0xfd] 100000

/-- A run with a static context leaves the state and the logs alone at every step, and returns
no logs. -/
theorem static_run_pure {S : Type} [StateDB S] [Crypto] (ctx : ExecutionContext) (db : S)
    (hsta : ctx.isStatic = true) :
    (∀ s, Visited (.new ctx db) s → s.state = db ∧ s.logs = []) ∧
    ∀ fuel r s, run fuel (.new ctx db) = some (.ok r s) →
      s.state = db ∧ s.logs = [] ∧ r.logs = [] := by
  have hvis (s : Interpreter S) (H : Visited (.new ctx db) s) :
      s.context.isStatic = true ∧ s.state = db ∧ s.logs = [] := by
    refine H.induct (fun s => s.context.isStatic = true ∧ s.state = db ∧ s.logs = [])
      ⟨hsta, rfl, rfl⟩ ?_ ?_ ?_
    · intro op a b _ _ _ ⟨ha, hdb, hlogs⟩ heff
      obtain ⟨hst, hlogs'⟩ := heff.static ha
      rw [heff.context, hst, hlogs']
      exact ⟨ha, hdb, hlogs⟩
    · intro e a b h hflt
      rw [hflt.frame]
      exact h
    · intro a h
      exact h
  refine ⟨fun s H => (hvis s H).2, ?_⟩
  intro fuel r s hrun
  obtain ⟨-, hdb, hlogs⟩ := hvis s (visited_of_run hrun)
  obtain ⟨p, a, H, hturn⟩ := run_eq_some hrun
  exact ⟨hdb, hlogs, (turn_done_ok hturn).logs (reaches_result rfl H.reaches)⟩

theorem static_run_pure_of_sstore :
    ∃ r s, run 3 (.new storeThenRevert.withStatic (∅ : HashMap Address Account)) = some (.ok r s) ∧
      r.status = .Halt .StateModificationInStatic ∧ s.state = ∅ ∧ s.logs = [] ∧ r.logs = [] :=
  ⟨_, _, rfl, rfl, (static_run_pure storeThenRevert.withStatic ∅ rfl).2 3 _ _ rfl⟩

/-- At every step and at the end, a run has changed nothing but storage slots of the executing
account. -/
theorem run_changes_only_storage [Crypto] (ctx : ExecutionContext) (db : HashMap Address Account) :
    (∀ s, Visited (.new ctx db) s → OnlyStorage ctx.address db s.state) ∧
    ∀ fuel r s, run fuel (.new ctx db) = some (.ok r s) →
      OnlyStorage ctx.address db s.state := by
  have hvis (s : Interpreter (HashMap Address Account)) (H : Visited (.new ctx db) s) :
      OnlyStorage ctx.address db s.state := by
    obtain ⟨a, ⟨p, H⟩, hfrm, -⟩ := H.exists_reaches rfl
    have hst : s.state = a.state := by rw [hfrm]
    rw [hst, state_of_path H]
    exact onlyStorage_replayStores
  exact ⟨hvis, fun fuel r s h => hvis s (visited_of_run h)⟩

theorem run_changes_only_storage_of_sstore :
    ∃ r s, run 7 (.new storeThenRevert (∅ : HashMap Address Account)) = some (.ok r s) ∧
      OnlyStorage (addressFromU256 2) ∅ s.state :=
  ⟨_, _, rfl, (run_changes_only_storage storeThenRevert ∅).2 7 _ _ rfl⟩

/-- A run that reverts or halts leaves the accounts as they were exactly when, for every key that
it stored to, the last value it stored is the one that was there before the run. -/
theorem failed_run_restores_iff [Crypto] (ctx : ExecutionContext) (db : HashMap Address Account)
    (fuel : Nat) (r : ExecutionResult) (s : Interpreter (HashMap Address Account))
    (h : run fuel (.new ctx db) = some (.ok r s)) (_hfailed : r.status ≠ .Success) :
    s.state = db ↔ ∀ key value,
      WriteLog.last (stores (trace turn fuel (.new ctx db))) key = some value →
      stored db ctx.address key = some value := by
  rw [state_of_run h]
  exact replayStores_eq_self_iff

/-- A store before `REVERT` is still there after it. -/
theorem reverted_store_survives :
    ∃ r s, run 7 (.new storeThenRevert (∅ : HashMap Address Account)) = some (.ok r s) ∧
      r.status = .Revert ∧ s.state ≠ ∅ := by
  refine ⟨_, _, rfl, rfl, ?_⟩
  apply ne_of_apply_ne (fun db => (db.lookup (addressFromU256 2)).isSome)
  decide

/-- Two stores to the slot zero, of 2 and of 1, before the run reverts. -/
def storeTwiceThenRevert : ExecutionContext :=
  createTestContext [0x60, 0x02, 0x60, 0x00, 0x55, 0x60, 0x01, 0x60, 0x00, 0x55, 0x5f, 0x5f, 0xfd]
    100000

def oneStored : HashMap Address Account :=
  .insert (addressFromU256 2)
    { Account.default with storage := .insert (.ofU256 0) (.ofU256 1) ∅ } ∅

theorem failed_run_restores_of_stored_back :
    ∃ r s, run 10 (.new storeTwiceThenRevert oneStored) = some (.ok r s) ∧
      r.status = .Revert ∧ s.state = oneStored := by
  obtain ⟨r, s, hrun, hrev⟩ : ∃ r s, run 10 (.new storeTwiceThenRevert oneStored) =
      some (.ok r s) ∧ r.status = .Revert := exists_of_evaluates (by decide +kernel)
  refine ⟨r, s, hrun, hrev, ?_⟩
  apply (failed_run_restores_iff storeTwiceThenRevert oneStored 10 r s hrun (by simp [hrev])).mpr
  have hst : stores (trace turn 10 (.new storeTwiceThenRevert oneStored)) =
      [(.ofU256 0, .ofU256 2), (.ofU256 0, .ofU256 1)] := by decide +kernel
  rw [hst]
  intro key value hlast
  by_cases hkey : .ofU256 0 = key
  · subst hkey
    rw [← hlast]
    decide
  · simp only [WriteLog.last, if_neg hkey, Option.or_none, reduceCtorEq] at hlast

end Interpreter

end EthereumRust.Evm
