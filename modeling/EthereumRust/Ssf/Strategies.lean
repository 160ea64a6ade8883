import EthereumRust.Ssf.BlsAggregation
import Mathlib.Data.UInt

/-!
# The strategies compared (`crates/ssf/src/signature_aggregation.rs`)

When signatures add up in a group, the aggregate of a list is determined by its entries (`Sums`): it
has the sum of the signatures that verify, and their validators, keys and stakes in order.
-/

namespace EthereumRust.Ssf

open Rust List

/-- Aggregation is addition in a group, and it never fails. -/
class GroupBls (G : Type) (K : outParam Type) [AddCommGroup G] [Bls G K] : Prop extends
    LawfulSignatureCodec G where
  addSignature_eq : ∀ g g' : G, Bls.addSignature g g' = .ok (g + g')
  addPublicKey_ok : ∀ key key' : K, ∃ sum, Bls.addPublicKey G key key' = .ok sum

namespace BLSAggregation

section
variable {G K : Type} [AddCommGroup G] [Bls G K]

variable (G) in
def signatureOf (sigData : SignatureData) : G :=
  match Bls.sigValidate sigData.signature with
  | .ok signature => signature
  | .error _ => 0

variable (G) in
def keyBytesOf (self : BLSAggregation K) (sigData : SignatureData) : Bytes :=
  match self.publicKeys.lookup sigData.validatorIndex with
  | some pubkey => Bls.keyBytes G pubkey
  | none => []

variable (G) in
def Readable (self : BLSAggregation K) (sigData : SignatureData) : Prop :=
  ∃ (signature : G) (pubkey : K), Bls.sigValidate sigData.signature = .ok signature ∧
    self.publicKeys.lookup sigData.validatorIndex = some pubkey

variable (G) in
def valid (self : BLSAggregation K) (message : Bytes) (entries : List SignatureData) :
    List SignatureData :=
  entries.filter (self.verifies G message)

variable (G) in
structure Sums (bls : BLSAggregation K) (message : Bytes) (entries : List SignatureData)
    (agg : AggregatedSignature) : Prop where
  readable : ∀ sigData ∈ entries, bls.Readable G sigData
  ne_nil : bls.valid G message entries ≠ []
  signature : agg.signature =
    SignatureCodec.compress ((bls.valid G message entries).map (signatureOf G)).sum
  publicKeys : agg.publicKeys = (bls.valid G message entries).map (bls.keyBytesOf G)
  message_eq : agg.message = message
  counts : Aggregates (bls.valid G message entries) agg.participants agg.totalStake

structure Collects (bls : BLSAggregation K) (message : Bytes) (entries : List SignatureData)
    (acc : Accumulator G K) : Prop where
  readable : ∀ sigData ∈ entries, bls.Readable G sigData
  signature : acc.aggregateSignature = if (bls.valid G message entries).isEmpty then none
    else some ((bls.valid G message entries).map (signatureOf G)).sum
  publicKeys : acc.publicKeys = (bls.valid G message entries).map (bls.keyBytesOf G)
  counts : Aggregates (bls.valid G message entries) acc.participants acc.totalStake

variable {s : BLSAggregation K} {sigData : SignatureData} {acc : Accumulator G K}

omit [AddCommGroup G] in
theorem valid_append : s.valid G msg (es ++ es') = s.valid G msg es ++ s.valid G msg es' :=
  filter_append ..

theorem collects_new : s.Collects msg [] (Accumulator.new : Accumulator G K) :=
  ⟨forall_mem_nil _, rfl, rfl, .nil⟩

theorem Collects.getD (h : s.Collects msg es acc) :
    acc.aggregateSignature.getD 0 = ((s.valid G msg es).map (signatureOf G)).sum := by
  rw [h.signature]
  cases s.valid G msg es with
  | nil => rfl
  | cons _ _ => rfl

theorem Collects.push {sig : G} (h : s.Collects msg es acc)
    (hsig : Bls.sigValidate sigData.signature = .ok sig)
    (hpk : s.publicKeys.lookup sigData.validatorIndex = some pubkey)
    (hver : Bls.verify sig pubkey msg s.domain = true)
    (hpush : acc.push (acc.aggregateSignature.getD 0 + sig) aggregatePubkey sigData pubkey =
      .ok acc') : s.Collects msg (es ++ [sigData]) acc' := by
  have hvld : s.valid G msg [sigData] = [sigData] := by
    rw [valid, filter_singleton, verifies, hsig, hpk]
    dsimp only
    rw [hver]
    rfl
  have hcou := Accumulator.aggregates_push h.counts hpush
  obtain ⟨stake, -, hpush⟩ := Call.checked_bind_eq_ok.mp hpush
  cases hpush
  refine ⟨?_, ?_, ?_, ?_⟩
  · rw [forall_mem_append]
    exact ⟨h.readable, forall_mem_singleton.mpr ⟨sig, pubkey, hsig, hpk⟩⟩
  · rw [valid_append, hvld, if_neg (by simp), map_append, sum_append, ← h.getD,
      map_singleton, sum_singleton, signatureOf, hsig]
  · rw [valid_append, hvld, map_append, ← h.publicKeys, map_singleton, keyBytesOf, hpk]
  · rwa [valid_append, hvld]

theorem Collects.skip (h : s.Collects msg es acc) (hrea : s.Readable G sigData)
    (hver : s.verifies G msg sigData = false) : s.Collects msg (es ++ [sigData]) acc := by
  have hvld : s.valid G msg (es ++ [sigData]) = s.valid G msg es := by
    rw [valid_append, valid, valid, filter_singleton, hver, Bool.cond_false, append_nil]
  refine ⟨?_, hvld ▸ h.signature, hvld ▸ h.publicKeys, hvld ▸ h.counts⟩
  rw [forall_mem_append]
  exact ⟨h.readable, forall_mem_singleton.mpr hrea⟩

variable [GroupBls G K]

instance : LawfulBls G K := ⟨fun g g' => ⟨g + g', GroupBls.addSignature_eq g g'⟩⟩

theorem Accumulator.addKey_ok (acc : Accumulator G K) :
    ∃ aggregatePubkey, acc.addKey pubkey = .ok aggregatePubkey := by
  unfold addKey
  cases acc.aggregatePubkey with
  | none => exact ⟨none, rfl⟩
  | some aggregatePubkey =>
    obtain ⟨sum, hsum⟩ := GroupBls.addPublicKey_ok (G := G) aggregatePubkey pubkey
    refine ⟨some sum, ?_⟩
    dsimp only
    rw [hsum]
    rfl

theorem Accumulator.add_eq (acc : Accumulator G K) :
    ∃ aggregatePubkey, acc.add sig pubkey sigData =
      acc.push ((acc.aggregateSignature.getD 0) + sig) aggregatePubkey sigData pubkey := by
  unfold add
  cases acc.aggregateSignature with
  | none => exact ⟨some pubkey, by rw [Option.getD_none, zero_add]⟩
  | some aggregateSignature =>
    obtain ⟨aggregatePubkey, hkey⟩ := acc.addKey_ok
    refine ⟨aggregatePubkey, ?_⟩
    dsimp only
    rw [GroupBls.addSignature_eq]
    dsimp only
    rw [hkey]
    rfl

theorem Collects.addEntry (h : s.Collects msg es acc)
    (hturn : s.addEntry msg acc sigData = .ok acc') : s.Collects msg (es ++ [sigData]) acc' := by
  obtain ⟨sig, hsig, hturn⟩ := hturn.of_bind
  obtain ⟨pubkey, hpk, hturn⟩ := hturn.of_bind
  rw [blstResult_eq_ok] at hsig
  rw [getPublicKey_eq_ok] at hpk
  cases hver : Bls.verify sig pubkey msg s.domain with
  | false =>
    rw [hver] at hturn
    cases hturn
    refine h.skip ⟨sig, pubkey, hsig, hpk⟩ ?_
    rw [verifies, hsig, hpk]
    exact hver
  | true =>
    obtain ⟨aggregatePubkey, hadd⟩ := acc.add_eq
    rw [hver] at hturn
    exact h.push hsig hpk hver (hadd.symm.trans hturn)

theorem exists_addEntry (hrea : s.Readable G sigData)
    (hfits : acc.totalStake.toNat + totalStake (s.valid G message [sigData]) < 2 ^ 256) :
    ∃ acc', s.addEntry message acc sigData = .ok acc' := by
  obtain ⟨signature, pubkey, hsig, hpk⟩ := hrea
  rw [BLSAggregation.addEntry, hsig, getPublicKey, hpk]
  change ∃ acc', (if (!Bls.verify signature pubkey message s.domain) = true then _ else _) = _
  cases hver : Bls.verify signature pubkey message s.domain with
  | false => exact ⟨acc, rfl⟩
  | true =>
    rw [valid, filter_singleton, verifies, hsig, hpk] at hfits
    dsimp only at hfits
    rw [hver] at hfits
    obtain ⟨aggregatePubkey, hadd⟩ := acc.add_eq
    have hstk : acc.totalStake.add sigData.stake = .ok (acc.totalStake + sigData.stake) :=
      if_pos hfits
    rw [hadd, Accumulator.push, hstk]
    exact ⟨_, rfl⟩

theorem Collects.exists_foldlM {done : List SignatureData} (h : s.Collects message done acc)
    (hrea : ∀ sigData ∈ es, s.Readable G sigData)
    (hfits : totalStake (s.valid G message (done ++ es)) < 2 ^ 256) :
    ∃ acc', es.foldlM (s.addEntry message) acc = .ok acc' := by
  induction es generalizing done acc with
  | nil => exact ⟨acc, rfl⟩
  | cons sigData es ih =>
    obtain ⟨hfst, hrest⟩ := forall_mem_cons.mp hrea
    rw [← singleton_append, ← append_assoc] at hfits
    have hroom : acc.totalStake.toNat + totalStake (s.valid G message [sigData]) < 2 ^ 256 := by
      rw [valid_append, valid_append] at hfits
      simp only [totalStake, map_append, sum_append] at hfits ⊢
      rw [h.counts.stake_eq, totalStake]
      omega
    obtain ⟨next, hnext⟩ := exists_addEntry hfst hroom
    obtain ⟨acc', hacc⟩ := ih (h.addEntry hnext) hrest hfits
    exact ⟨acc', by rw [foldlM_cons, hnext, Call.ok_bind, hacc]⟩

theorem collects_foldlM (h : es.foldlM (s.addEntry msg) Accumulator.new = .ok acc) :
    s.Collects msg es acc :=
  Call.foldlM_eq_ok_induction_self (P := fun done acc => s.Collects msg done acc)
    Collects.addEntry collects_new h

theorem aggregateSequential_eq_ok :
    s.aggregateSequential G es message = .ok agg ↔ s.Sums G message es agg := by
  constructor
  · intro h
    obtain ⟨-, h⟩ := Call.guard_eq_ok.mp h
    obtain ⟨acc, hacc, h⟩ := h.of_bind
    have hcol := collects_foldlM hacc
    have hsig := hcol.signature
    split_ifs at hsig with hemp
    · rw [hsig] at h
      cases h
    · rw [hsig] at h
      cases h
      exact ⟨hcol.readable, mt List.isEmpty_iff.mpr hemp, rfl, hcol.publicKeys, rfl, hcol.counts⟩
  · intro h
    obtain ⟨acc, hacc⟩ := collects_new.exists_foldlM h.readable
      (by rw [nil_append, ← h.counts.stake_eq]; exact agg.totalStake.isLt)
    have hcol := collects_foldlM hacc
    have hsig := hcol.signature
    rw [if_neg (mt List.isEmpty_iff.mp h.ne_nil)] at hsig
    have hne : ¬es.isEmpty = true := by
      intro hemp
      apply h.ne_nil
      rw [List.isEmpty_iff.mp hemp]
      rfl
    rw [aggregateSequential, if_neg hne, hacc, Call.ok_bind, hsig]
    have hstk : acc.totalStake = agg.totalStake :=
      BitVec.eq_of_toNat_eq (hcol.counts.stake_eq.trans h.counts.stake_eq.symm)
    change Except.ok (AggregatedSignature.mk _ _ _ _ _) = .ok agg
    rw [← h.signature, hcol.publicKeys, ← h.publicKeys, hstk,
      hcol.counts.participants_eq, ← h.counts.participants_eq, ← h.message_eq]

theorem mergeable_sums : Mergeable G (s.Sums G msg) where
  parsed h hsig := by
    rw [h.signature, LawfulSignatureCodec.fromBytes_compress] at hsig
    cases hsig
    exact { h with signature := rfl }
  merged {part part' acc acc' agg} h hagg hturn := by
    obtain ⟨sig, hsig, hturn⟩ := hturn.of_bind
    obtain ⟨sum, hsum, hturn⟩ := hturn.of_bind
    obtain ⟨stake, hadd, hturn⟩ := Call.checked_bind_eq_ok.mp hturn
    cases hturn
    rw [hagg.signature, LawfulSignatureCodec.fromBytes_compress] at hsig
    rw [blstResult_eq_ok, GroupBls.addSignature_eq] at hsum
    cases hsig
    cases hsum
    refine ⟨?_, ?_, ?_, ?_, h.message_eq, ?_⟩
    · exact forall_mem_append.mpr ⟨h.readable, hagg.readable⟩
    · rw [valid_append]
      exact append_ne_nil_of_left_ne_nil h.ne_nil _
    · have hacc := congrArg (SignatureCodec.fromBytes (G := G)) h.signature
      dsimp only at hacc
      rw [LawfulSignatureCodec.fromBytes_compress, LawfulSignatureCodec.fromBytes_compress] at hacc
      rw [valid_append, map_append, sum_append, Except.ok.inj hacc]
    · rw [valid_append, map_append, ← h.publicKeys, ← hagg.publicKeys]
    · rw [valid_append]
      exact h.counts.append hagg.counts hadd

end

/-- What batches or halves return is what the signatures give one after the other: with the same
signature, the same participants and keys in order, and the same stake. -/
theorem aggregateSequential_of_merged {G K : Type} [AddCommGroup G] [Bls G K] [GroupBls G K]
    (s : BLSAggregation K) (sigs : List SignatureData) (msg : Bytes)
    (batchSize depth : Nat) (res : AggregatedSignature) :
    (s.aggregateBatched G sigs msg batchSize = .ok res →
        s.aggregateSequential G sigs msg = .ok res) ∧
      (s.aggregateTree G msg depth sigs = .ok res →
        s.aggregateSequential G sigs msg = .ok res) := by
  have hseq {part : List SignatureData} {agg : AggregatedSignature}
      (h : s.aggregateSequential G part msg = .ok agg) : s.Sums G msg part agg :=
    aggregateSequential_eq_ok.mp h
  constructor
  · intro h
    exact aggregateSequential_eq_ok.mpr (mergeable_sums.aggregateBatched hseq h)
  · intro h
    exact aggregateSequential_eq_ok.mpr (mergeable_sums.aggregateTree hseq h)

namespace Sample
open UInt8.CommRing

scoped instance : GroupBls UInt8 UInt8 where
  fromBytes_compress _ := rfl
  addSignature_eq _ _ := rfl
  addPublicKey_ok key key' := ⟨key + key', rfl⟩

/-- The second signature is not valid. -/
def mixed : List SignatureData := [⟨0, [10], 32⟩, ⟨1, [99], 32⟩, ⟨1, [11], 32⟩]

theorem aggregateSequential_of_merged_sample :
    ∃ res, res.signature = [21] ∧ res.participants = [0, 1] ∧
      (aggregation .sequential).aggregateBatched UInt8 mixed [] 2 = .ok res ∧
      (aggregation .sequential).aggregateTree UInt8 [] 1 mixed = .ok res ∧
      (aggregation .sequential).aggregateSequential UInt8 mixed [] = .ok res := by
  have hbat : (aggregation .sequential).aggregateBatched UInt8 mixed [] 2 = .ok _ := rfl
  exact ⟨_, rfl, rfl, hbat, rfl,
    (aggregateSequential_of_merged (aggregation .sequential) mixed [] 2 1 _).1 hbat⟩

end Sample

end BLSAggregation

end EthereumRust.Ssf
