import EthereumRust.Consensus.Eip7002
import EthereumRust.Lib.History

/-!
# The exit queue over a whole run

The churn limit is checked against the pending exits only. It bounds all exits of an epoch because
processed exits lie in the past: their epochs are before the epoch of some call (`Inv.due`), and no
exit is scheduled there any more.
-/

namespace EthereumRust.Consensus

open Rust Rust.Method List Batches

namespace ExitQueueManager

section
variable {self self' : ExitQueueManager} {found : UInt64} {turns : Nat}

theorem searchExitEpoch_eq_ok (h : self.searchExitEpoch turns start = .ok found) :
    start.toNat ≤ found.toNat ∧ self.exitsInEpoch found < self.maxExitsPerEpoch.toNat := by
  induction turns generalizing start with
  | zero => cases h
  | succ turns ih =>
    rw [searchExitEpoch] at h
    split_ifs at h with hroom
    · cases h
      exact ⟨le_rfl, hroom⟩
    · obtain ⟨next, hnext, h⟩ := h.of_bind
      rw [addU64_eq_ok] at hnext
      obtain ⟨hle, hfou⟩ := ih h
      exact ⟨by omega, hfou⟩

def exitsFrom (self : ExitQueueManager) (epoch : Nat) : Nat :=
  self.pendingExits.countP fun exit => epoch ≤ exit.exitEpoch.toNat

theorem exitsFrom_eq (self : ExitQueueManager) (epoch : UInt64) :
    self.exitsFrom epoch.toNat = self.exitsInEpoch epoch + self.exitsFrom (epoch.toNat + 1) := by
  rw [exitsFrom, exitsInEpoch, exitsFrom]
  induction self.pendingExits with
  | nil => rfl
  | cons exit exits ih =>
    rw [countP_cons, countP_cons, countP_cons, ih]
    simp only [decide_eq_true_eq, ← UInt64.toNat_inj]
    split_ifs <;> omega

theorem searchExitEpoch_returns (hmax : 1 ≤ self.maxExitsPerEpoch)
    (htur : self.exitsFrom start.toNat < turns)
    (hlt : start.toNat + self.exitsFrom start.toNat < wordBound) :
    ∃ found, self.searchExitEpoch turns start = .ok found ∧
      found.toNat ≤ start.toNat + self.exitsFrom start.toNat := by
  induction turns generalizing start with
  | zero => exact absurd htur (Nat.not_lt_zero _)
  | succ turns ih =>
    rw [searchExitEpoch]
    split_ifs with hroom
    · exact ⟨start, rfl, Nat.le_add_right _ _⟩
    · change 1 ≤ self.maxExitsPerEpoch.toNat at hmax
      have hspl := self.exitsFrom_eq start
      have hsum : start.toNat + (1 : UInt64).toNat < wordBound := by
        change start.toNat + 1 < wordBound
        omega
      have hnext : (start + 1).toNat = start.toNat + 1 := toNat_add_of_lt hsum
      rw [← hnext] at hspl
      have htur' : self.exitsFrom (start + 1).toNat < turns := by omega
      have hlt' : (start + 1).toNat + self.exitsFrom (start + 1).toNat < wordBound := by omega
      obtain ⟨found, hfou, hle⟩ := ih htur' hlt'
      refine ⟨found, ?_, by omega⟩
      exact Except.bind_eq_ok.mpr ⟨start + 1, addU64_of_lt hsum, hfou⟩

end

structure ExitRequest where
  validatorIndex : UInt64
  validatorPubkey : Pubkey
  currentEpoch : UInt64
  initiatedBy : ExitInitiator

structure Schedules (request : ExitRequest) (exit : ValidatorExit) : Prop where
  validatorIndex : exit.validatorIndex = request.validatorIndex
  validatorPubkey : exit.validatorPubkey = request.validatorPubkey
  initiatedBy : exit.initiatedBy = request.initiatedBy
  exitEpoch : request.currentEpoch.toNat + 4 ≤ exit.exitEpoch.toNat
  withdrawableEpoch : exit.withdrawableEpoch.toNat = exit.exitEpoch.toNat + 256

def ExitRequest.submit (request : ExitRequest) : Method ExitQueueManager Eip7002Error Unit :=
  addExitRequest request.validatorIndex request.validatorPubkey request.currentEpoch
    request.initiatedBy

section
variable {self self' : ExitQueueManager} {req : ExitRequest}

theorem submit_eq_ok (h : req.submit self = .ok () self') :
    ∃ exit, Schedules req exit ∧ (∀ pend ∈ self.pendingExits,
        pend.validatorIndex ≠ exit.validatorIndex) ∧
      self.exitsInEpoch exit.exitEpoch < self.maxExitsPerEpoch.toNat ∧
      self' = { self with
        pendingExits := sortByKey (·.exitEpoch.toNat) (self.pendingExits ++ [exit]) } := by
  rw [ExitRequest.submit, addExitRequest, bind_read] at h
  split_ifs at h with hany
  · cases h
  · rw [bind_read] at h
    obtain ⟨exitEpoch, s₁, hlift, h₁⟩ := bind_eq_ok.mp h
    obtain ⟨hcal, rfl⟩ := checked_eq_ok.mp hlift
    obtain ⟨withdrawableEpoch, s₂, hlift', h₂⟩ := bind_eq_ok.mp h₁
    obtain ⟨hwd, rfl⟩ := checked_eq_ok.mp hlift'
    obtain ⟨start, hst, hsea⟩ := hcal.of_bind
    rw [addU64_eq_ok] at hst hwd
    obtain ⟨hle, hroom⟩ := searchExitEpoch_eq_ok hsea
    have hdel : req.currentEpoch.toNat + 4 ≤ exitEpoch.toNat := hst.symm.le.trans hle
    refine ⟨⟨req.validatorIndex, req.validatorPubkey, exitEpoch, withdrawableEpoch,
      req.initiatedBy⟩, ⟨rfl, rfl, rfl, hdel, hwd⟩, ?_, hroom, update_eq_ok.mp h₂⟩
    intro pend hpnd hidx
    exact hany (any_eq_true.mpr ⟨pend, hpnd, decide_eq_true hidx⟩)

theorem submit_returns (hmax : 1 ≤ self.maxExitsPerEpoch)
    (h : req.currentEpoch.toNat + 4 + self.pendingExits.length + 256 < wordBound) :
    req.submit self = .err .alreadyExited self ∨
      ∃ self', req.submit self = .ok () self' := by
  rw [ExitRequest.submit, addExitRequest, bind_read]
  split_ifs with hany
  · exact .inl rfl
  · have hst : req.currentEpoch.toNat + (4 : UInt64).toNat < wordBound := by
      change req.currentEpoch.toNat + 4 < wordBound
      omega
    have htoN : (req.currentEpoch + 4).toNat = req.currentEpoch.toNat + 4 :=
      toNat_add_of_lt hst
    have hfrom : self.exitsFrom (req.currentEpoch + 4).toNat ≤ self.pendingExits.length :=
      countP_le_length
    have htur : self.exitsFrom (req.currentEpoch + 4).toNat < wordBound := by omega
    obtain ⟨exitEpoch, hsea, hle⟩ := searchExitEpoch_returns hmax htur (by omega)
    have hcal : self.calculateExitEpoch req.currentEpoch = .ok exitEpoch :=
      Except.bind_eq_ok.mpr ⟨_, addU64_of_lt hst, hsea⟩
    have hwd : exitEpoch.toNat + (256 : UInt64).toNat < wordBound := by
      change exitEpoch.toNat + 256 < wordBound
      omega
    rw [bind_read, bind_of_ok (checked_eq_ok.mpr ⟨hcal, rfl⟩),
      bind_of_ok (checked_eq_ok.mpr ⟨addU64_of_lt hwd, rfl⟩)]
    exact .inr ⟨_, rfl⟩

end

theorem submit_eq_err {req : ExitRequest}
    (h : req.submit self = .err e self') : self' = self := by
  have hsat : Sat req.submit self (fun _ _ => True) (fun _ self' => self' = self)
      (fun _ => True) := by
    rw [ExitRequest.submit, addExitRequest, sat_bind, sat_read]
    split_ifs
    · rfl
    · rw [sat_bind, sat_read, sat_bind, sat_checked]
      split
      · rw [sat_bind, sat_checked]
        split
        · trivial
        · trivial
      · trivial
  exact hsat.of_err h

inductive ExitEvent where
  | accepted (request : ExitRequest)
  | refused (request : ExitRequest)
  | processed (currentEpoch : UInt64) (exits : List ValidatorExit)

namespace ExitEvent

def currentEpoch : ExitEvent → UInt64
  | .accepted request => request.currentEpoch
  | .refused request => request.currentEpoch
  | .processed currentEpoch _ => currentEpoch

def acceptedRequest : ExitEvent → Option ExitRequest
  | .accepted request => some request
  | _ => none

end ExitEvent

/-- One event of a queue whose epochs never go back. -/
def ExitStep (past : List ExitEvent) (self : ExitQueueManager) (event : ExitEvent)
    (self' : ExitQueueManager) : Prop :=
  (∀ earlier ∈ past, earlier.currentEpoch ≤ event.currentEpoch) ∧
    match event with
    | .accepted request => request.submit self = .ok () self'
    | .refused request => ∃ e, request.submit self = .err e self'
    | .processed currentEpoch exits => self.processEpoch currentEpoch = (exits, self')

def allExits (self : ExitQueueManager) : List ValidatorExit :=
  self.pendingExits ++ self.processedExits

structure Sound (maxExitsPerEpoch : UInt64) (past : List ExitEvent) (manager : ExitQueueManager) :
    Prop where
  sorted : manager.pendingExits.Pairwise fun exit exit' => exit.exitEpoch ≤ exit'.exitEpoch
  distinct : (manager.pendingExits.map (·.validatorIndex)).Nodup
  /-- The exits that are pending or processed are those of the accepted requests, each of them once.
  -/
  accounted : ∃ exits, List.Forall₂ Schedules (past.filterMap (·.acceptedRequest)) exits ∧
    exits.Nodup ∧ exits.Perm manager.allExits
  bounded : ∀ epoch, manager.allExits.countP (·.exitEpoch = epoch) ≤ maxExitsPerEpoch.toNat
  /-- A further request is answered if the epochs do not overflow. -/
  returns : ∀ request : ExitRequest,
    request.currentEpoch.toNat + 4 + manager.pendingExits.length + 256 < wordBound →
      request.submit manager = .err .alreadyExited manager ∨
        ∃ manager', request.submit manager = .ok () manager'

structure Inv (maxExitsPerEpoch : UInt64) (past : List ExitEvent) (manager : ExitQueueManager) :
    Prop where
  max : manager.maxExitsPerEpoch = maxExitsPerEpoch
  sorted : manager.pendingExits.Pairwise fun exit exit' => exit.exitEpoch ≤ exit'.exitEpoch
  distinct : (manager.pendingExits.map (·.validatorIndex)).Nodup
  accounted : ∃ exits, List.Forall₂ Schedules (past.filterMap (·.acceptedRequest)) exits ∧
    exits.Perm manager.allExits
  nodup : manager.allExits.Nodup
  bounded : ∀ epoch, manager.allExits.countP (·.exitEpoch = epoch) ≤ maxExitsPerEpoch.toNat
  /-- Processed exits lie in the past. -/
  due : ∀ exit ∈ manager.processedExits, ∃ event ∈ past, exit.exitEpoch ≤ event.currentEpoch

namespace Inv
variable {maxExitsPerEpoch : UInt64} {self self' : ExitQueueManager} {req : ExitRequest}

section
variable (H : Inv cap past self)
include H

theorem due_append (event : ExitEvent) :
    ∀ exit ∈ self.processedExits,
      ∃ event' ∈ past ++ [event], exit.exitEpoch ≤ event'.currentEpoch := by
  intro exit hexit
  obtain ⟨event', heve', hle⟩ := H.due exit hexit
  exact ⟨event', mem_append_left _ heve', hle⟩

theorem accounted_append {event : ExitEvent} (heve : event.acceptedRequest = none)
    (hall : self'.allExits.Perm self.allExits) :
    ∃ exits, List.Forall₂ Schedules ((past ++ [event]).filterMap (·.acceptedRequest)) exits ∧
      exits.Perm self'.allExits := by
  obtain ⟨exits, hexi, hperm⟩ := H.accounted
  refine ⟨exits, ?_, hperm.trans hall.symm⟩
  rwa [filterMap_append, filterMap_cons_none heve, filterMap_nil, append_nil]

theorem processed_lt (hepo : ∀ earlier ∈ past, earlier.currentEpoch ≤ req.currentEpoch)
    (hexit : Schedules req exit) :
    ∀ processed ∈ self.processedExits, processed.exitEpoch ≠ exit.exitEpoch := by
  intro processed hpro heq
  obtain ⟨event, heve, hle⟩ := H.due processed hpro
  have hepoc := hepo event heve
  have hdel := hexit.exitEpoch
  rw [UInt64.le_iff_toNat_le] at hle hepoc
  rw [← heq] at hdel
  omega

theorem accept (hepo : ∀ earlier ∈ past, earlier.currentEpoch ≤ req.currentEpoch)
    (h : req.submit self = .ok () self') : Inv cap (past ++ [.accepted req]) self' := by
  obtain ⟨exit, hexit, hnew, hroom, rfl⟩ := submit_eq_ok h
  have hlat := H.processed_lt hepo hexit
  have hpnd : (sortByKey (·.exitEpoch.toNat) (self.pendingExits ++ [exit])).Perm
      (exit :: self.pendingExits) :=
    (perm_sortByKey _ _).trans perm_append_comm
  have hall : (sortByKey (·.exitEpoch.toNat) (self.pendingExits ++ [exit]) ++
      self.processedExits).Perm (exit :: self.allExits) := hpnd.append_right _
  refine ⟨H.max, ?_, ?_, ?_, ?_, ?_, H.due_append _⟩
  · have hsrt : (sortByKey (·.exitEpoch.toNat) (self.pendingExits ++ [exit])).Pairwise
        (Batches.Stable (·.exitEpoch.toNat) fun _ _ => True) :=
      pairwise_sortByKey (pairwise_of_forall fun _ _ => trivial)
    exact hsrt.imp fun hsta => UInt64.le_iff_toNat_le.mpr hsta.le
  · rw [(hpnd.map _).nodup_iff, map_cons, nodup_cons]
    refine ⟨?_, H.distinct⟩
    intro hmem
    obtain ⟨pend, hpnd, hidx⟩ := mem_map.mp hmem
    exact hnew pend hpnd hidx
  · obtain ⟨exits, hexi, hperm⟩ := H.accounted
    refine ⟨exits ++ [exit], ?_, ?_⟩
    · rw [filterMap_append]
      exact rel_append hexi (.cons hexit .nil)
    · exact (perm_append_comm.trans (hperm.cons exit)).trans hall.symm
  · rw [allExits, hall.nodup_iff, nodup_cons]
    refine ⟨?_, H.nodup⟩
    intro hmem
    obtain hmem | hmem := mem_append.mp hmem
    · exact hnew exit hmem rfl
    · exact hlat exit hmem rfl
  · intro epoch
    rw [allExits, hall.countP_eq, countP_cons]
    have hbou := H.bounded epoch
    split_ifs with hepoc
    · obtain rfl := of_decide_eq_true hepoc
      have hpro : self.processedExits.countP (·.exitEpoch = exit.exitEpoch) = 0 := by
        refine countP_eq_zero.mpr fun processed hmem => ?_
        rw [decide_eq_true_eq]
        exact hlat processed hmem
      rw [H.max] at hroom
      rw [allExits, countP_append, hpro]
      exact hroom
    · exact hbou

theorem process (h : self.processEpoch currentEpoch = (exits, self')) :
    Inv cap (past ++ [.processed currentEpoch exits]) self' := by
  cases h
  have hspl := filter_append_perm (fun exit : ValidatorExit => exit.exitEpoch ≤ currentEpoch)
    self.pendingExits
  have hall : (self.processEpoch currentEpoch).2.allExits.Perm self.allExits := by
    refine perm_append_comm.trans ?_
    rw [processEpoch, append_assoc]
    exact (hspl.append_left _).trans perm_append_comm
  refine ⟨H.max, H.sorted.filter _, ?_, H.accounted_append rfl hall, hall.nodup_iff.mpr H.nodup,
    ?_, ?_⟩
  · exact H.distinct.sublist (filter_sublist.map _)
  · exact fun epoch => (hall.countP_eq _).le.trans (H.bounded epoch)
  · intro exit hexit
    obtain hmem | hmem := mem_append.mp hexit
    · exact H.due_append _ exit hmem
    · refine ⟨_, mem_append_right _ (mem_singleton_self _), ?_⟩
      exact of_decide_eq_true (mem_filter.mp hmem).2

theorem refuse (h : req.submit self = .err e self') :
    Inv cap (past ++ [.refused req]) self' := by
  obtain rfl := submit_eq_err h
  exact ⟨H.max, H.sorted, H.distinct, H.accounted_append rfl (.refl _), H.nodup, H.bounded,
    H.due_append _⟩

end

end Inv

section
variable {cap : UInt64}

/-- The invariant holds after every run. -/
theorem inv_of_run (h : History.Run ExitStep (new cap) past self) : Inv cap past self := by
  refine h.induct (Inv cap) ?_ ?_
  · refine ⟨rfl, .nil, nodup_nil, ⟨[], .nil, .nil⟩, nodup_nil, ?_, forall_mem_nil _⟩
    exact fun _ => Nat.zero_le _
  · rintro past self event self' - H ⟨hepo, hcall⟩
    cases event with
    | accepted req => exact H.accept hepo hcall
    | refused req =>
      obtain ⟨e, herr⟩ := hcall
      exact H.refuse herr
    | processed epoch exits => exact H.process hcall

/-- After every run of calls with non-decreasing epochs the pending exits are sorted and of distinct
validators, pending and processed exits are those of the accepted requests, and no epoch has more of
them than it may have. -/
theorem exit_queue_sound (hmax : 1 ≤ cap) (h : History.Run ExitStep (new cap) past self) :
    Sound cap past self := by
  have H := inv_of_run h
  obtain ⟨exits, hexi, hperm⟩ := H.accounted
  refine ⟨H.sorted, H.distinct, ⟨exits, hexi, hperm.nodup_iff.mpr H.nodup, hperm⟩, H.bounded, ?_⟩
  intro req hepo
  exact submit_returns (H.max ▸ hmax) hepo

end

def performExit (past : List ExitEvent) (self : ExitQueueManager) (event : ExitEvent) :
    Option ExitQueueManager :=
  if ∀ earlier ∈ past, earlier.currentEpoch ≤ event.currentEpoch then
    match event with
    | .accepted request =>
      match request.submit self with
      | .ok _ self' => some self'
      | _ => none
    | .refused request =>
      match request.submit self with
      | .err _ self' => some self'
      | _ => none
    | .processed currentEpoch exits =>
      if (self.processEpoch currentEpoch).1 = exits then some (self.processEpoch currentEpoch).2
      else none
  else none

theorem exitStep_of_performExit (past : List ExitEvent) (self : ExitQueueManager)
    (event : ExitEvent) (self' : ExitQueueManager) (h : performExit past self event = some self') :
    ExitStep past self event self' := by
  unfold performExit at h
  split_ifs at h with hepo
  refine ⟨hepo, ?_⟩
  cases event with
  | accepted req =>
    dsimp only at h ⊢
    split at h
    · next heq =>
      cases h
      exact heq
    · cases h
  | refused req =>
    dsimp only at h ⊢
    split at h
    · next e _ heq =>
      cases h
      exact ⟨e, heq⟩
    · cases h
  | processed epoch exits =>
    dsimp only at h ⊢
    split_ifs at h with hexi
    cases h
    exact Prod.ext hexi rfl

def sampleRequest (validatorIndex currentEpoch : UInt64) : ExitRequest where
  validatorIndex
  validatorPubkey := .replicate 48 0
  currentEpoch
  initiatedBy := .executionLayer

def sampleExit (validatorIndex exitEpoch : UInt64) : ValidatorExit where
  validatorIndex
  validatorPubkey := .replicate 48 0
  exitEpoch
  withdrawableEpoch := exitEpoch + 256
  initiatedBy := .executionLayer

theorem exit_queue_sound_sample : ∃ self : ExitQueueManager,
    self.pendingExits = [sampleExit 3 5, sampleExit 1 8] ∧
      Sound 2 [.accepted (sampleRequest 1 0), .accepted (sampleRequest 2 0),
        .refused (sampleRequest 1 0), .accepted (sampleRequest 3 0),
        .processed 4 [sampleExit 1 4, sampleExit 2 4], .accepted (sampleRequest 1 4)] self := by
  exact History.exists_of_replay exitStep_of_performExit (by decide +kernel)
    fun self hrun hpnd => ⟨hpnd, exit_queue_sound (by decide) hrun⟩

end ExitQueueManager

end EthereumRust.Consensus
