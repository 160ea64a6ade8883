import EthereumRust.Consensus.ExitQueue

/-!
# How often a validator exits

A request is checked against the pending exits only, so a validator that has exited can ask again.
-/

namespace EthereumRust.Consensus

open Rust Rust.Method List

namespace ExitQueueManager

namespace ExitEvent

def returned : ExitEvent → List ValidatorExit
  | .processed _ exits => exits
  | _ => []

end ExitEvent

/-- Everything that `process_epoch` has returned. -/
def exited (past : List ExitEvent) : List ValidatorExit := past.flatMap ExitEvent.returned

/-- One event, at any epoch. -/
def CallStep (_ : List ExitEvent) (self : ExitQueueManager) (event : ExitEvent)
    (self' : ExitQueueManager) : Prop :=
  match event with
  | .accepted request => request.submit self = .ok () self'
  | .refused request => ∃ e, request.submit self = .err e self'
  | .processed currentEpoch exits => self.processEpoch currentEpoch = (exits, self')

theorem callStep_of_exitStep
    (h : ExitStep past s event s') : CallStep past s event s' := h.2

abbrev indices (exits : List ValidatorExit) : List UInt64 := exits.map (·.validatorIndex)

/-- No request was accepted for a validator that was among the processed exits of the manager. -/
def NoReentry (start : ExitQueueManager) (past : List ExitEvent) : Prop :=
  ∀ earlier request later self, past = earlier ++ .accepted request :: later →
    History.Run CallStep start earlier self →
      request.validatorIndex ∉ indices self.processedExits

section
variable {past : List ExitEvent} {event : ExitEvent} {request : ExitRequest} {cap : UInt64}

theorem exited_append (past : List ExitEvent) (event : ExitEvent) :
    exited (past ++ [event]) = exited past ++ event.returned := by
  rw [exited, flatMap_append, flatMap_singleton]
  rfl

theorem processedExits_of_run (h : History.Run CallStep (new cap) past s) :
    s.processedExits = exited past := by
  refine h.induct (fun past s => s.processedExits = exited past) rfl ?_
  rintro past s event s' - hpro hcall
  rw [exited_append, ← hpro]
  cases event with
  | accepted request =>
    obtain ⟨_, -, -, -, rfl⟩ := submit_eq_ok hcall
    exact (append_nil _).symm
  | refused request =>
    obtain ⟨e, herr⟩ := hcall
    rw [submit_eq_err herr]
    exact (append_nil _).symm
  | processed epoch exits =>
    cases hcall
    rfl

theorem noReentry_append (hrun : History.Run CallStep (new cap) past s) :
    NoReentry (new cap) (past ++ [event]) ↔ NoReentry (new cap) past ∧
      ∀ request, event = .accepted request →
        request.validatorIndex ∉ indices (exited past) := by
  constructor
  · intro h
    refine ⟨fun earlier request later t heq => ?_, ?_⟩
    · refine h earlier request (later ++ [event]) t ?_
      rw [heq, append_assoc, cons_append]
    · rintro request rfl
      rw [← processedExits_of_run hrun]
      exact h past request [] s rfl hrun
  · rintro ⟨h, hlast⟩ earlier request later t heq hbef
    rcases eq_nil_or_concat' later with rfl | ⟨later, last, rfl⟩
    · obtain ⟨rfl, heve⟩ := append_inj' heq rfl
      rw [processedExits_of_run hbef]
      exact hlast request (singleton_inj.mp heve)
    · rw [← cons_append, ← append_assoc] at heq
      exact h earlier request later t (append_inj' heq rfl).1 hbef

end

structure Tracked (cap : UInt64) (past : List ExitEvent) (manager : ExitQueueManager) : Prop where
  distinct : (indices manager.pendingExits).Nodup
  once : (indices (exited past ++ manager.pendingExits)).Nodup ↔ NoReentry (new cap) past

section
variable {cap : UInt64}

namespace Tracked
variable {request : ExitRequest}

section
variable (hrun : History.Run CallStep (new cap) past s)
include hrun

theorem accept (H : Tracked cap past s) (h : request.submit s = .ok () s') :
    Tracked cap (past ++ [.accepted request]) s' := by
  obtain ⟨exit, hexit, hnew, -, rfl⟩ := submit_eq_ok h
  have hpnd : (Batches.sortByKey (·.exitEpoch.toNat) (s.pendingExits ++ [exit])).Perm
      (exit :: s.pendingExits) :=
    (Batches.perm_sortByKey _ _).trans perm_append_comm
  have hfr : exit.validatorIndex ∉ indices s.pendingExits := by
    intro hmem
    obtain ⟨pend, hmem, hidx⟩ := mem_map.mp hmem
    exact hnew pend hmem hidx
  have hall : (exited past ++ Batches.sortByKey (·.exitEpoch.toNat)
      (s.pendingExits ++ [exit])).Perm (exit :: (exited past ++ s.pendingExits)) :=
    (hpnd.append_left _).trans perm_middle
  constructor
  · exact (hpnd.map _).nodup_iff.mpr (nodup_cons.mpr ⟨hfr, H.distinct⟩)
  · have hexi : exited (past ++ [.accepted request]) = exited past :=
      (exited_append ..).trans (append_nil _)
    rw [hexi, noReentry_append hrun, ← H.once, (hall.map _).nodup_iff, map_cons,
      nodup_cons, and_comm]
    refine and_congr_right fun _ => ?_
    rw [map_append, mem_append, or_iff_left hfr, hexit.validatorIndex]
    exact ⟨fun h _ heq => ExitEvent.accepted.inj heq ▸ h, fun h => h request rfl⟩

theorem move (H : Tracked cap past s) {event : ExitEvent}
    (heve : ∀ request, event ≠ .accepted request) (hpnd : (indices s'.pendingExits).Nodup)
    (hall : (event.returned ++ s'.pendingExits).Perm s.pendingExits) :
    Tracked cap (past ++ [event]) s' := by
  refine ⟨hpnd, ?_⟩
  rw [exited_append, append_assoc, noReentry_append hrun, ← H.once,
    and_iff_left fun request heq => absurd heq (heve request)]
  exact ((hall.append_left _).map _).nodup_iff

theorem process (H : Tracked cap past s) (h : s.processEpoch epoch = (exits, s')) :
    Tracked cap (past ++ [.processed epoch exits]) s' := by
  cases h
  refine H.move hrun (fun _ h => (by cases h)) ?_ ?_
  · exact H.distinct.sublist (filter_sublist.map _)
  · exact filter_append_perm (fun exit : ValidatorExit => exit.exitEpoch ≤ epoch)
      s.pendingExits

theorem refuse (H : Tracked cap past s) (h : request.submit s = .err e s') :
    Tracked cap (past ++ [.refused request]) s' := by
  obtain rfl := submit_eq_err h
  exact H.move hrun (fun _ h => (by cases h)) H.distinct (.refl _)

end

end Tracked

theorem tracked_of_run (h : History.Run CallStep (new cap) past s) : Tracked cap past s := by
  refine h.induct (Tracked cap) ?_ ?_
  · refine ⟨nodup_nil, iff_of_true nodup_nil fun earlier request later _ h => ?_⟩
    exact absurd h.symm (append_ne_nil_of_right_ne_nil _ (cons_ne_nil _ _))
  · rintro past s event s' hrun H hcall
    cases event with
    | accepted request => exact H.accept hrun hcall
    | refused request =>
      obtain ⟨e, herr⟩ := hcall
      exact H.refuse hrun herr
    | processed epoch exits => exact H.process hrun hcall

theorem processEpoch_max (s : ExitQueueManager) : (s.processEpoch u64Max).1 = s.pendingExits := by
  refine filter_eq_self.mpr fun exit _ => decide_eq_true ?_
  exact Nat.le_of_lt_succ exit.exitEpoch.toNat_lt

/-- After every run, whatever epoch is processed next: no validator has been returned twice exactly
if no request was accepted for a validator that had been returned before. -/
theorem exits_once_iff (h : History.Run CallStep (new cap) past s) :
    (∀ epoch, (indices (exited past ++ (s.processEpoch epoch).1)).Nodup) ↔
      NoReentry (new cap) past := by
  rw [← (tracked_of_run h).once]
  constructor
  · intro hnd
    have hmax := hnd u64Max
    rwa [processEpoch_max] at hmax
  · intro hnd epoch
    exact hnd.sublist ((filter_sublist.append_left _).map _)

end

def sampleEvents : List ExitEvent :=
  [.accepted (sampleRequest 1 0), .processed 4 [sampleExit 1 4], .accepted (sampleRequest 2 4)]

theorem exits_once_iff_sample : ∃ s : ExitQueueManager,
    indices (exited sampleEvents ++ (s.processEpoch 8).1) = [1, 2] ∧
    ((∀ epoch, (indices (exited sampleEvents ++ (s.processEpoch epoch).1)).Nodup) ↔
      NoReentry (new 1) sampleEvents) := by
  exact History.exists_of_replay exitStep_of_performExit (by decide +kernel) fun s hrun hnext =>
    ⟨hnext, exits_once_iff (hrun.imp fun _ _ _ _ => callStep_of_exitStep)⟩

/-- Validator 1 is accepted again after its exit, and returned a second time. -/
def reentered : List ExitEvent :=
  [.accepted (sampleRequest 1 0), .processed 4 [sampleExit 1 4],
    .accepted (sampleRequest 1 10), .processed 14 [sampleExit 1 14]]

/-- Validator 1 has exited at epoch 4 and is returned again at epoch 14. -/
theorem exits_twice : ∃ s : ExitQueueManager, History.Run CallStep (new 1) reentered s ∧
    indices (exited reentered) = [1, 1] := by
  exact History.exists_of_replay exitStep_of_performExit (by decide +kernel) fun s hrun hexits =>
    ⟨hrun.imp fun _ _ _ _ => callStep_of_exitStep, hexits⟩

end ExitQueueManager

end EthereumRust.Consensus
