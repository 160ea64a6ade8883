import EthereumRust.Consensus.Clique
import EthereumRust.Lib.History

/-!
# Votes on signers

`process_vote` counts every vote on record, also those of addresses that have been removed from the
signers since.
-/

namespace EthereumRust.Consensus

open Rust EthereumRust.Core List Finset

namespace Clique

structure VoteCall where
  header : Header
  signer : Address

def VoteCall.proposal (call : VoteCall) : Address := call.header.beneficiary

def voters (self : Clique) (proposal : Address) (vote : Bool) : Finset Address :=
  self.votes.keys.filter fun voter => self.voteOf voter proposal = some vote

def recorded (self : Clique) (call : VoteCall) : Clique :=
  self.recordVote call.signer call.proposal (call.header.nonce != 0)

def tally (self : Clique) (call : VoteCall) (vote : Bool) : Nat :=
  (self.recorded call).countVotes call.proposal vote

def afterVote (self : Clique) (call : VoteCall) : Clique :=
  self.processVote call.header call.signer

section
variable {self : Clique} {voter proposal : Address} {vote : Bool}

theorem mem_voters :
    voter ∈ self.voters proposal vote ↔ self.voteOf voter proposal = some vote := by
  rw [voters, Finset.mem_filter, and_iff_right_iff_imp]
  intro h
  obtain ⟨votes, hvot, -⟩ := Option.bind_eq_some_iff.mp h
  exact Finmap.mem_keys.mpr (Finmap.mem_of_lookup_eq_some hvot)

theorem countVotes_eq : self.countVotes proposal vote = (self.voters proposal vote).card := by
  have hkeys : self.votes.keys.val = self.votes.entries.map Sigma.fst := rfl
  rw [voters, card_def, filter_val, hkeys, Multiset.filter_map, Multiset.card_map,
    countVotes, Multiset.countP_eq_card_filter]
  congr 1
  refine Multiset.filter_congr fun entry hent => ?_
  have hget : self.votes.lookup entry.1 = some entry.2 := Finmap.lookup_eq_some_iff.mpr hent
  rw [Function.comp_apply, voteOf, hget, Option.bind_some]

theorem voteOf_recordVote : (self.recordVote signer proposal vote).voteOf voter proposal =
    if voter = signer then some vote else self.voteOf voter proposal := by
  rw [voteOf, recordVote, HashMap.lookup_insert_ite]
  split_ifs
  · exact Finmap.lookup_insert _
  · rfl

theorem signers_afterVote : (self.afterVote call).signers =
    if call.proposal = Address.zero then self.signers
    else if self.threshold ≤ self.tally call true ∧ call.proposal ∉ self.signers then
      self.signers ++ [call.proposal]
    else if self.threshold ≤ self.tally call false ∧ call.proposal ∈ self.signers then
      self.signers.filter (· ≠ call.proposal)
    else self.signers := by
  simp only [afterVote, processVote, apply_ite Clique.signers]
  rfl

def Majority (self : Clique) (proposal : Address) (vote : Bool) : Prop :=
  self.signers.length <
    2 * (self.signers.toFinset.filter fun signer => self.voteOf signer proposal = some vote).card

/-- A call leaves the signers as they are, or it adds or removes the proposed address with a
majority of the signers for it. -/
def Lawful (self : Clique) (call : VoteCall) : Prop :=
  (self.afterVote call).signers = self.signers ∨
    ((self.afterVote call).signers = self.signers ++ [call.proposal] ∧
      call.proposal ∉ self.signers ∧ (self.recorded call).Majority call.proposal true) ∨
    ((self.afterVote call).signers = self.signers.filter (· ≠ call.proposal) ∧
      call.proposal ∈ self.signers ∧ (self.recorded call).Majority call.proposal false)

/-- No address that is not a signer has a vote on record that can be counted: one to add the
proposed address, or to remove it if it is a signer. -/
def NoFormerVotes (self : Clique) (call : VoteCall) : Prop :=
  ∀ voter, self.voteOf voter call.proposal = some (!self.isAuthorized call.proposal) →
    voter ∈ self.signers

theorem noFormerVotes_iff : self.NoFormerVotes call ↔
    self.voters call.proposal (!self.isAuthorized call.proposal) ⊆ self.signers.toFinset := by
  simp only [NoFormerVotes, subset_iff, mem_voters, mem_toFinset]

instance : Decidable (self.Majority proposal vote) := inferInstanceAs (Decidable (_ < _))

instance : Decidable (self.Lawful call) := inferInstanceAs (Decidable (_ ∨ _ ∨ _))

instance : Decidable (self.NoFormerVotes call) := decidable_of_iff _ noFormerVotes_iff.symm

theorem majority_of_tally (hsgn : call.signer ∈ self.signers)
    (hfor : ∀ voter, self.voteOf voter call.proposal = some vote → voter ∈ self.signers)
    (htal : self.threshold ≤ self.tally call vote) :
    (self.recorded call).Majority call.proposal vote := by
  -- every voter that is counted is a signer
  have hsub : (self.recorded call).voters call.proposal vote ⊆
      self.signers.toFinset.filter fun signer =>
        (self.recorded call).voteOf signer call.proposal = some vote := by
    intro voter hvot
    have hvote := mem_voters.mp hvot
    refine mem_filter.mpr ⟨mem_toFinset.mpr ?_, hvote⟩
    rw [recorded, voteOf_recordVote] at hvote
    split_ifs at hvote with heq
    · exact heq ▸ hsgn
    · exact hfor voter hvote
  have hcard := card_le_card hsub
  rw [tally, countVotes_eq, threshold] at htal
  have hmaj : self.signers.length < 2 * (self.signers.toFinset.filter fun signer =>
      (self.recorded call).voteOf signer call.proposal = some vote).card := by omega
  exact hmaj

theorem lawful_of_noFormerVotes (hsgn : call.signer ∈ self.signers)
    (hfor : self.NoFormerVotes call) : self.Lawful call := by
  unfold Lawful
  rw [signers_afterVote]
  split_ifs with hzero hadd hrem
  · exact .inl rfl
  · rw [NoFormerVotes, isAuthorized, decide_eq_false hadd.2] at hfor
    exact .inr (.inl ⟨rfl, hadd.2, majority_of_tally hsgn hfor hadd.1⟩)
  · rw [NoFormerVotes, isAuthorized, decide_eq_true hrem.2] at hfor
    exact .inr (.inr ⟨rfl, hrem.2, majority_of_tally hsgn hfor hrem.1⟩)
  · exact .inl rfl

/-- The vote removes the last signer. -/
def RemovesLast (self : Clique) (call : VoteCall) : Prop :=
  call.proposal ≠ Address.zero ∧ (∀ signer ∈ self.signers, signer = call.proposal) ∧
    self.threshold ≤ self.tally call false

instance : Decidable (self.RemovesLast call) := inferInstanceAs (Decidable (_ ∧ _ ∧ _))

theorem signers_afterVote_eq_nil (hne : self.signers ≠ []) :
    (self.afterVote call).signers = [] ↔ self.RemovesLast call := by
  have hfil : self.signers.filter (· ≠ call.proposal) = [] ↔
      ∀ signer ∈ self.signers, signer = call.proposal := by
    simp [filter_eq_nil_iff]
  rw [signers_afterVote, RemovesLast]
  split_ifs with hzero hadd hrem
  · simp [hne, hzero]
  · have hoth : ¬∀ signer ∈ self.signers, signer = call.proposal := by
      intro hall
      obtain ⟨signer, hsgn⟩ := exists_mem_of_ne_nil _ hne
      exact hadd.2 (hall signer hsgn ▸ hsgn)
    simp [hoth]
  · rw [hfil]
    exact ⟨fun hall => ⟨hzero, hall, hrem.1⟩, fun h => h.2.1⟩
  · constructor
    · exact fun h => absurd h hne
    · rintro ⟨-, hall, htal⟩
      obtain ⟨signer, hsgn⟩ := exists_mem_of_ne_nil _ hne
      exact absurd ⟨htal, hall signer hsgn ▸ hsgn⟩ hrem

/-- No remainder by the number of signers panics. -/
def NeverDividesByZero [Crypto] (self : Clique) : Prop :=
  (∀ parent signer, self.calculateNextTimestamp parent signer ≠ .error .division) ∧
    ∀ parent transactions beneficiary,
      self.produceBlock parent transactions beneficiary ≠ .error .division

theorem calculateNextTimestamp_ne_division (hne : self.signers ≠ []) (par : Header)
    (signer : Address) : self.calculateNextTimestamp par signer ≠ .error .division := by
  have hlen : self.signers.length ≠ 0 := mt length_eq_zero_iff.mp hne
  refine Checked.bind_ne_error U256.asU64_ne_division fun number => ?_
  refine Checked.bind_ne_error addU64_ne_division fun next => ?_
  refine Checked.bind_ne_error (remUsize_ne_division hlen) fun turn => ?_
  split_ifs
  · refine Checked.bind_ne_error addU64_ne_division fun time => ?_
    intro h
    cases h
  · refine Checked.bind_ne_error addU64_ne_division fun time => ?_
    exact addU64_ne_division

theorem neverDividesByZero_of_ne_nil [Crypto] (hne : self.signers ≠ []) :
    self.NeverDividesByZero := by
  have hlen : self.signers.length ≠ 0 := mt length_eq_zero_iff.mp hne
  refine ⟨calculateNextTimestamp_ne_division hne, fun par txs beneficiary => ?_⟩
  refine Checked.bind_ne_error U256.add_ne_division fun num => ?_
  refine Checked.bind_ne_error U256.asU64_ne_division fun number => ?_
  refine Checked.bind_ne_error (remUsize_ne_division hlen) fun turn => ?_
  cases self.signers[turn]? with
  | none =>
    intro h
    cases h
  | some inTurn =>
    refine Checked.bind_ne_error (calculateNextTimestamp_ne_division hne _ _) fun ts => ?_
    intro h
    cases h

end

/-- A vote of a signer that meets `cond`. -/
def VoteStep (cond : Clique → VoteCall → Prop) (_ : List VoteCall) (self : Clique) (call : VoteCall)
    (self' : Clique) : Prop :=
  call.signer ∈ self.signers ∧ cond self call ∧ self' = self.afterVote call

def performVote (cond : Clique → VoteCall → Prop) [∀ self call, Decidable (cond self call)]
    (_ : List VoteCall) (self : Clique) (call : VoteCall) : Option Clique :=
  if self.isAuthorized call.signer ∧ cond self call then some (self.afterVote call) else none

theorem voteStep_of_performVote {cond : Clique → VoteCall → Prop}
    [∀ self call, Decidable (cond self call)] (past : List VoteCall) (self : Clique)
    (call : VoteCall) (self' : Clique) (h : performVote cond past self call = some self') :
    VoteStep cond past self call self' := by
  rw [performVote] at h
  split_ifs at h with hcall
  cases h
  exact ⟨of_decide_eq_true hcall.1, hcall.2, rfl⟩

def sampleVote (signer proposal : Nat) (nonce : UInt64) : VoteCall where
  header := { Header.new with beneficiary := addressFromU256 (.ofNat 256 proposal), nonce }
  signer := addressFromU256 (.ofNat 256 signer)

section
variable {past pre post : List VoteCall} {self : Clique} {call : VoteCall}
  {cfg : ConsensusConfig}

/-- In a run whose calls count no vote of a former signer, every call that changes the signers has a
majority of them behind it. -/
theorem signers_change_by_majority
    (h : History.Run (VoteStep NoFormerVotes) (new cfg) (pre ++ call :: post) self) :
    ∃ before, History.Run (VoteStep NoFormerVotes) (new cfg) pre before ∧ before.Lawful call := by
  obtain ⟨before, after, hrun, hsgn, hfor, -⟩ := h.of_append
  exact ⟨before, hrun, lawful_of_noFormerVotes hsgn hfor⟩

theorem signers_change_by_majority_sample :
    ∃ before, History.Run (VoteStep NoFormerVotes) (new (sampleConfig .clique [1, 2, 3]))
      [sampleVote 1 4 1] before ∧ before.Lawful (sampleVote 2 4 1) := by
  have hrun : ∃ self, History.Run (VoteStep NoFormerVotes) (new (sampleConfig .clique [1, 2, 3]))
      ([sampleVote 1 4 1] ++ [sampleVote 2 4 1]) self ∧ True :=
    History.exists_run_of_replay voteStep_of_performVote (by decide +kernel)
  obtain ⟨self, hrun, -⟩ := hrun
  exact signers_change_by_majority hrun

/-- Signer 4 votes to remove signer 1 and is removed itself. Its vote stays on record, and with one
more vote of the three signers left signer 1 is removed. -/
theorem removed_by_former_signer :
    ∃ self, History.Run (VoteStep fun _ _ => True) (new (sampleConfig .clique [1, 2, 3, 4]))
      [sampleVote 4 1 0, sampleVote 1 4 0, sampleVote 2 4 0, sampleVote 3 4 0] self ∧
      ((sampleVote 2 1 0).signer ∈ self.signers ∧ ¬self.Lawful (sampleVote 2 1 0)) :=
  History.exists_run_of_replay voteStep_of_performVote (by decide +kernel)

/-- As long as no call removes the last signer there are signers, and the remainders can be taken;
and a further call leaves signers exactly if it does not remove the last one. -/
theorem signers_nonempty [Crypto] (hne : cfg.validators ≠ [])
    (h : History.Run (VoteStep fun self call => ¬self.RemovesLast call) (new cfg) past self) :
    self.signers ≠ [] ∧ self.NeverDividesByZero ∧
      ∀ call, (self.afterVote call).signers ≠ [] ↔ ¬self.RemovesLast call := by
  have hsgns : self.signers ≠ [] := by
    refine h.induct (fun _ self => self.signers ≠ []) hne ?_
    rintro past self call self' - hself ⟨-, hlast, rfl⟩
    exact mt (signers_afterVote_eq_nil hself).mp hlast
  exact ⟨hsgns, neverDividesByZero_of_ne_nil hsgns,
    fun call => not_congr (signers_afterVote_eq_nil hsgns)⟩

end

section
open Unhashed

theorem signers_nonempty_sample :
    ∃ self : Clique, self.signers ≠ [] ∧ self.NeverDividesByZero ∧
      ∀ call, (self.afterVote call).signers ≠ [] ↔ ¬self.RemovesLast call := by
  have hrun : ∃ self, History.Run (VoteStep fun self call => ¬self.RemovesLast call)
      (new (sampleConfig .clique [1, 2])) [sampleVote 1 2 0] self ∧ True :=
    History.exists_run_of_replay voteStep_of_performVote (by decide +kernel)
  obtain ⟨self, hrun, -⟩ := hrun
  exact ⟨self, signers_nonempty (by decide +kernel) hrun⟩

/-- The only signer votes itself out. -/
theorem last_signer_removed :
    ∃ self, History.Run (VoteStep fun _ _ => True) (new (sampleConfig .clique [1]))
        [sampleVote 1 1 0] self ∧
      (self.signers = [] ∧
        self.calculateNextTimestamp Header.new Address.zero = .error .division ∧
        self.produceBlock Header.new [] Address.zero = .error .division) :=
  History.exists_run_of_replay voteStep_of_performVote (by decide +kernel)

end

end Clique

end EthereumRust.Consensus
