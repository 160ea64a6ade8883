import EthereumRust.Consensus.ProofOfStake
import EthereumRust.Lib.History

/-!
# Justified checkpoints

`check_finality` counts attestations where it should count validators, and rounds the threshold
down.
-/

namespace EthereumRust.Consensus

open Rust EthereumRust.Core List

namespace ProofOfStake

def support (attestations : List Attestation) (target : Checkpoint) : Nat :=
  attestations.countP fun attestation => attestation.targetCheckpoint = target

def attesters (self : ProofOfStake) (target : Checkpoint) : Finset Address :=
  ((self.attestations.filter (·.targetCheckpoint = target)).map (·.validator)).toFinset

section
variable {t : ProofOfStake} {epoch : UInt64} {justified : Finset H256}
  {attestations : List Attestation}

theorem support_append_singleton : support (attestations ++ [att]) tgt =
      support attestations tgt + if att.targetCheckpoint = tgt then 1 else 0 := by
  rw [support, countP_append, countP_singleton]
  simp only [decide_eq_true_eq]
  rfl

theorem attestationCount_append_singleton : attestationCount epoch (attestations ++ [att]) =
      let root := att.targetCheckpoint.root
      let counts := attestationCount epoch attestations
      if att.targetCheckpoint.epoch = epoch then
        counts.insert root ((counts.lookup root).getD 0 + 1)
      else counts := foldl_append ..

theorem lookup_attestationCount : (attestationCount epoch attestations).lookup root =
    if support attestations ⟨epoch, root⟩ = 0 then none
    else some (support attestations ⟨epoch, root⟩) := by
  induction attestations using reverseRecOn generalizing root with
  | nil => rfl
  | append_singleton attestations att ih =>
    have hgetD (root : H256) : ((attestationCount epoch attestations).lookup root).getD 0 =
        support attestations ⟨epoch, root⟩ := by
      rw [ih]
      split_ifs with hzero
      · exact hzero.symm
      · rfl
    rw [attestationCount_append_singleton]
    by_cases htgt : att.targetCheckpoint = ⟨epoch, root⟩
    · have hsup : support (attestations ++ [att]) ⟨epoch, root⟩ =
          support attestations ⟨epoch, root⟩ + 1 := by
        rw [support_append_singleton, if_pos htgt]
      rw [hsup, htgt, if_pos rfl, if_neg (Nat.succ_ne_zero _), Finmap.lookup_insert, hgetD]
    · have hsup : support (attestations ++ [att]) ⟨epoch, root⟩ =
          support attestations ⟨epoch, root⟩ := by
        rw [support_append_singleton, if_neg htgt, add_zero]
      rw [hsup, ← ih]
      split_ifs with hepo
      · have hroot : root ≠ att.targetCheckpoint.root := by
          rintro rfl
          exact htgt (hepo ▸ rfl)
        exact Finmap.lookup_insert_of_ne _ hroot
      · rfl

theorem mem_justified (h : t.checkFinality = .ok (epoch, justified)) : root ∈ justified ↔
    0 < support t.attestations ⟨epoch, root⟩ ∧
      t.threshold ≤ support t.attestations ⟨epoch, root⟩ := by
  obtain ⟨currentEpoch, -, h⟩ := h.of_bind
  cases h
  rw [Finset.mem_filter, Finmap.mem_keys, ← Finmap.lookup_isSome, lookup_attestationCount]
  split_ifs with hzero
  · simp [hzero]
  · simp [Nat.pos_of_ne_zero hzero]

theorem drawCommittee_subset [SeedableRng] {vals com : List Address} {rng : Rng}
    (h : drawCommittee vals size indices rng = .ok com) : com ⊆ vals := by
  induction size generalizing indices rng com with
  | zero =>
    cases h
    exact nil_subset _
  | succ size ih =>
    cases indices with
    | nil => cases h
    | cons first rest =>
      rw [drawCommittee] at h
      dsimp only at h
      split at h
      · cases h
      · next v hv =>
        obtain ⟨rest', hrest, h⟩ := h.of_bind
        cases h
        exact cons_subset.mpr ⟨mem_of_getElem? hv, ih hrest⟩

theorem getCommittee_subset [SeedableRng] {slot : UInt64}
    (h : t.getCommittee slot = .ok com) : com ⊆ t.validators := by
  rw [getCommittee] at h
  split_ifs at h
  · cases h
    exact List.Subset.refl _
  · exact drawCommittee_subset h

section
variable [Crypto] [Recovery] [SeedableRng]

theorem validator_of_verified (h : t.verifyAttestation att = .ok (.ok ())) :
    att.validator ∈ t.validators := by
  obtain ⟨com, hcom, h⟩ := h.of_bind
  split_ifs at h with hmem
  · cases h
  · exact getCommittee_subset hcom (by simpa using hmem)

theorem validator_of_acceptAll (h : t.acceptAll batch = .ok accepted) :
    ∀ att ∈ accepted, att.validator ∈ t.validators := by
  induction batch generalizing accepted with
  | nil =>
    cases h
    exact forall_mem_nil _
  | cons att rest ih =>
    obtain ⟨verified, hver, h⟩ := h.of_bind
    obtain ⟨accepted', hacc, h⟩ := h.of_bind
    cases verified with
    | ok =>
      cases h
      exact forall_mem_cons.mpr ⟨validator_of_verified hver, ih hacc⟩
    | error e =>
      cases h
      exact ih hacc

theorem processAttestations_eq_ok (h : t.processAttestations batch = .ok (res, t')) :
    ∃ accepted, t.acceptAll batch = .ok accepted ∧
      t' = { t with attestations := t.attestations ++ accepted } ∧
      t'.checkFinality = .ok res := by
  obtain ⟨accepted, hacc, h⟩ := h.of_bind
  obtain ⟨res', hres, h⟩ := h.of_bind
  cases h
  exact ⟨accepted, hacc, rfl, hres⟩

def Attestation.vote (attestation : Attestation) : Address × Checkpoint :=
  (attestation.validator, attestation.targetCheckpoint)

omit [Crypto] [Recovery] [SeedableRng] in
theorem card_attesters (h : (t.attestations.map (·.vote)).Nodup) :
    (t.attesters tgt).card = support t.attestations tgt := by
  have hvals :
      ((t.attestations.filter (·.targetCheckpoint = tgt)).map (·.validator)).Nodup := by
    rw [List.Nodup, pairwise_map] at h ⊢
    refine (h.filter (·.targetCheckpoint = tgt)).imp_of_mem ?_
    intro att att' hmem hmem' hne heq
    have htgt := of_decide_eq_true (mem_filter.mp hmem).2
    have htgt' := of_decide_eq_true (mem_filter.mp hmem').2
    exact hne (Prod.ext heq (htgt.trans htgt'.symm))
  rw [attesters, toFinset_card_of_nodup hvals, length_map, support, countP_eq_length_filter]

structure Sound (state : ProofOfStake) (epoch : UInt64) (justified : Finset H256) : Prop where
  /-- Distinct validators that make up two thirds of the list attested to the root. -/
  quorum : ∀ root ∈ justified, state.attesters ⟨epoch, root⟩ ⊆ state.validators.toFinset ∧
    2 * state.validators.length ≤ 3 * (state.attesters ⟨epoch, root⟩).card
  /-- An attestation that is submitted several times counts once. -/
  repeated : { state with attestations := state.attestations.dedup }.checkFinality =
    .ok (epoch, justified)
  /-- A third of the validators attested to both of two roots. -/
  overlap : ∀ root ∈ justified, ∀ root' ∈ justified, root ≠ root' → state.validators.length ≤
    3 * (state.attesters ⟨epoch, root⟩ ∩ state.attesters ⟨epoch, root'⟩).card

/-- A batch that meets `cond` and is processed. -/
def AttestStep (cond : ProofOfStake → List Attestation → Prop) (_ : List (List Attestation))
    (self : ProofOfStake) (batch : List Attestation) (self' : ProofOfStake) : Prop :=
  cond self batch ∧ ∃ result, self.processAttestations batch = .ok (result, self')

/-- No accepted attestation repeats a vote on record or in the batch. -/
def Unrepeated (self : ProofOfStake) (batch : List Attestation) : Prop :=
  ∀ accepted, self.acceptAll batch = .ok accepted →
    ((self.attestations ++ accepted).map (·.vote)).Nodup

variable {start : ProofOfStake} {past : List (List Attestation)}

theorem unrepeated_of_run (hst : start.attestations = [])
    (h : History.Run (AttestStep Unrepeated) start past t) :
    t.validators = start.validators ∧ (t.attestations.map (·.vote)).Nodup ∧
      ∀ att ∈ t.attestations, att.validator ∈ t.validators := by
  refine h.induct (fun _ t => t.validators = start.validators ∧
    (t.attestations.map (·.vote)).Nodup ∧
    ∀ att ∈ t.attestations, att.validator ∈ t.validators) ?_ ?_
  · rw [hst]
    exact ⟨rfl, nodup_nil, forall_mem_nil _⟩
  · rintro past t batch t' - ⟨hvals, -, hmem⟩ ⟨hcond, res, hpro⟩
    obtain ⟨accepted, hacc, rfl, -⟩ := processAttestations_eq_ok hpro
    have hmem' := validator_of_acceptAll hacc
    exact ⟨hvals, hcond accepted hacc, forall_mem_append.mpr ⟨hmem, hmem'⟩⟩

/-- If the number of validators is one or a multiple of three, then in every run that accepts no
vote twice the roots that `check_finality` takes for justified have quorums. -/
theorem justified_by_quorum (hst : start.attestations = [])
    (hcnt : start.validators.length = 1 ∨ 3 ∣ start.validators.length)
    (h : History.Run (AttestStep Unrepeated) start past t)
    (hfin : t.checkFinality = .ok (epoch, justified)) : t.Sound epoch justified := by
  obtain ⟨hvals, hnd, hmem⟩ := unrepeated_of_run hst h
  rw [← hvals] at hcnt
  have hsub (tgt : Checkpoint) : t.attesters tgt ⊆ t.validators.toFinset := by
    intro v hv
    obtain ⟨att, hatt, rfl⟩ := mem_map.mp (mem_toFinset.mp hv)
    exact mem_toFinset.mpr (hmem att (mem_of_mem_filter hatt))
  have hquo : ∀ root ∈ justified,
      2 * t.validators.length ≤ 3 * (t.attesters ⟨epoch, root⟩).card := by
    intro root hroot
    rw [card_attesters hnd]
    have hjus := (mem_justified hfin).mp hroot
    rw [threshold] at hjus
    omega
  refine ⟨fun root hroot => ⟨hsub _, hquo root hroot⟩, ?_, ?_⟩
  · rw [dedup_eq_self.mpr (List.Nodup.of_map _ hnd)]
    exact hfin
  · intro root hroot root' hroot' hne
    have huni := Finset.card_le_card
      (Finset.union_subset (hsub ⟨epoch, root⟩) (hsub ⟨epoch, root'⟩))
    have hcard := Finset.card_union_add_card_inter (t.attesters ⟨epoch, root⟩)
      (t.attesters ⟨epoch, root'⟩)
    have hlen := t.validators.toFinset_card_le
    have hfst := hquo root hroot
    have hsec := hquo root' hroot'
    omega

instance (self : ProofOfStake) (batch : List Attestation) : Decidable (Unrepeated self batch) :=
  match h : self.acceptAll batch with
  | .ok accepted =>
    decidable_of_iff ((self.attestations ++ accepted).map (·.vote)).Nodup
      ⟨fun hnodup _ haccepted => Except.ok.inj (h.symm.trans haccepted) ▸ hnodup,
        fun hunrepeated => hunrepeated accepted h⟩
  | .error _ => .isTrue fun _ haccepted => nomatch h.symm.trans haccepted

def performAttest (cond : ProofOfStake → List Attestation → Prop)
    [∀ self batch, Decidable (cond self batch)] (_ : List (List Attestation)) (self : ProofOfStake)
    (batch : List Attestation) : Option ProofOfStake :=
  if cond self batch then (self.processAttestations batch).toOption.map (·.2) else none

theorem attestStep_of_performAttest {cond : ProofOfStake → List Attestation → Prop}
    [∀ t batch, Decidable (cond t batch)] (past : List (List Attestation)) (t : ProofOfStake)
    (batch : List Attestation) (t' : ProofOfStake) (h : performAttest cond past t batch = some t') :
    AttestStep cond past t batch t' := by
  rw [performAttest] at h
  split_ifs at h with hcond
  refine ⟨hcond, ?_⟩
  cases hpro : t.processAttestations batch with
  | ok res =>
    rw [hpro] at h
    cases h
    exact ⟨res.1, rfl⟩
  | error p =>
    rw [hpro] at h
    cases h

end

end

section
open scoped Unhashed SelfSigned

/-- For concrete committees, which have no more members than there are validators to draw. -/
local instance : SeedableRng where
  Rng := Unit
  seedFromU64 _ := ()
  genRange last rng := (⟨0, Nat.succ_pos last⟩, rng)

def sampleAttestation (validator : Nat) : Attestation where
  slot := 0
  validator := addressFromU256 (.ofNat 256 validator)
  beaconBlockRoot := H256.zero
  sourceCheckpoint := ⟨0, H256.zero⟩
  targetCheckpoint := ⟨0, H256.zero⟩
  signature :=
    { r := ⟨(addressFromU256 (.ofNat 256 validator)).toList ++ List.replicate 12 0, by simp⟩
      s := H256.zero
      v := 0 }

theorem justified_by_quorum_sample : ∃ t : ProofOfStake,
    History.Run (AttestStep Unrepeated) (new (sampleConfig .proofOfStake [1, 2, 3]))
      [[sampleAttestation 1, sampleAttestation 4], [sampleAttestation 2]] t ∧
    t.checkFinality = .ok (0, {H256.zero}) ∧ t.Sound 0 {H256.zero} := by
  exact History.exists_of_replay attestStep_of_performAttest (by decide +kernel)
    fun t hrun hfin => ⟨hrun, hfin, justified_by_quorum rfl (.inr ⟨1, rfl⟩) hrun hfin⟩

/-- One of three validators justifies a root by attesting to it twice, and so do two of four. -/
theorem justified_without_quorum :
    (∃ t : ProofOfStake,
      History.Run (AttestStep fun _ _ => True) (new (sampleConfig .proofOfStake [1, 2, 3]))
        [[sampleAttestation 1], [sampleAttestation 1]] t ∧
      t.checkFinality = .ok (0, {H256.zero}) ∧
      t.attesters ⟨0, H256.zero⟩ = {addressFromU256 1}) ∧
    ∃ t : ProofOfStake,
      History.Run (AttestStep Unrepeated) (new (sampleConfig .proofOfStake [1, 2, 3, 4]))
        [[sampleAttestation 1, sampleAttestation 2]] t ∧
      t.checkFinality = .ok (0, {H256.zero}) ∧
      t.attesters ⟨0, H256.zero⟩ = {addressFromU256 1, addressFromU256 2} :=
  ⟨History.exists_run_of_replay attestStep_of_performAttest (by decide +kernel),
    History.exists_run_of_replay attestStep_of_performAttest (by decide +kernel)⟩

end

end ProofOfStake

end EthereumRust.Consensus
