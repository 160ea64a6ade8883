import EthereumRust.Ssf.Aggregator

/-!
# Aggregation of votes (`crates/ssf/src/signature_aggregation.rs`)

An aggregate names the validators that have signed and adds up their stakes. Whichever strategy is
used, the aggregate is made of certain entries of the list, each of which adds its validator and its
stake (`Aggregates`). These are the entries that verify, except in threads: there no signature is
verified, and a thread that panics takes its entries with it.
-/

namespace EthereumRust.Ssf
open Rust
open List hiding sum

/-- What is used of `blst`, with errors given by their names. -/
class Bls (G : Type) (K : outParam Type) extends SignatureCodec G where
  sigValidate : Bytes → Except String G
  /-- Of a signature, with a key, for a message in a domain. -/
  verify : G → K → Bytes → Bytes → Bool
  addSignature : G → G → Except String G
  addPublicKey : K → K → Except String K
  keyBytes : K → Bytes

/-- `add_signature` can only fail in the group check, which is never asked for. -/
class LawfulBls (G : Type) (K : outParam Type) [Bls G K] : Prop where
  addSignature_ok : ∀ g g' : G, ∃ sum, Bls.addSignature g g' = .ok sum

structure SignatureData where
  validatorIndex : UInt64
  signature : Bytes
  stake : U256
  deriving DecidableEq

structure AggregatedSignature where
  signature : Bytes
  publicKeys : List Bytes
  message : Bytes
  participants : List UInt64
  totalStake : U256
  deriving DecidableEq

structure PartialAggregate (G : Type) where
  signature : Option G
  participants : List UInt64
  totalStake : U256

inductive BLSAggregation.AggregationStrategy where
  | sequential
  | parallel (workers : Nat)
  | batched (batchSize : Nat)
  | tree (depth : Nat)

structure BLSAggregation (K : Type) where
  domain : Bytes
  publicKeys : HashMap UInt64 K
  aggregationStrategy : BLSAggregation.AggregationStrategy

/-- The order in which the threads send their results, by the chunks they work on. -/
structure Arrival where
  order : List (List SignatureData) → List (List SignatureData)
  perm : ∀ chunks, (order chunks).Perm chunks

def blstResult {α : Type} (text : String) : Except String α → Call SSFError α :=
  Except.mapError fun e => .err (.signatureError (text ++ e))

namespace BLSAggregation

section
variable {G K : Type} [Bls G K]

structure Accumulator (G K : Type) where
  aggregateSignature : Option G
  aggregatePubkey : Option K
  participants : List UInt64
  totalStake : U256
  publicKeys : List Bytes

def Accumulator.new : Accumulator G K where
  aggregateSignature := none
  aggregatePubkey := none
  participants := []
  totalStake := 0
  publicKeys := []

def getPublicKey (self : BLSAggregation K) (validatorIndex : UInt64) : Call SSFError K :=
  match self.publicKeys.lookup validatorIndex with
  | some pubkey => .ok pubkey
  | none => Call.fail (.signatureError
      ("Public key not found for validator " ++ toString validatorIndex))

def Accumulator.push (acc : Accumulator G K) (aggregateSignature : G) (aggregatePubkey : Option K)
    (sigData : SignatureData) (pubkey : K) : Call SSFError (Accumulator G K) := do
  let totalStake ← acc.totalStake.add sigData.stake
  return {
    aggregateSignature := some aggregateSignature
    aggregatePubkey
    participants := acc.participants ++ [sigData.validatorIndex]
    totalStake
    publicKeys := acc.publicKeys ++ [Bls.keyBytes G pubkey] }

def Accumulator.addKey (acc : Accumulator G K) (pubkey : K) : Call SSFError (Option K) :=
  match acc.aggregatePubkey with
  | none => .ok none
  | some aggregatePubkey => do
    let aggregatePubkey ← blstResult "" (Bls.addPublicKey G aggregatePubkey pubkey)
    return some aggregatePubkey

def Accumulator.add (acc : Accumulator G K) (signature : G) (pubkey : K)
    (sigData : SignatureData) : Call SSFError (Accumulator G K) :=
  match acc.aggregateSignature with
  | none => acc.push signature (some pubkey) sigData pubkey
  | some aggregateSignature =>
    match Bls.addSignature aggregateSignature signature with
    | .error _ => .ok acc
    | .ok aggregateSignature => do
      let aggregatePubkey ← acc.addKey pubkey
      acc.push aggregateSignature aggregatePubkey sigData pubkey

def addEntry (self : BLSAggregation K) (message : Bytes) (acc : Accumulator G K)
    (sigData : SignatureData) : Call SSFError (Accumulator G K) := do
  let signature ← blstResult "Invalid signature: " (Bls.sigValidate sigData.signature)
  let pubkey ← self.getPublicKey sigData.validatorIndex
  if !Bls.verify signature pubkey message self.domain then return acc
  else acc.add signature pubkey sigData

variable (G) in
def aggregateSequential (self : BLSAggregation K) (signatures : List SignatureData)
    (message : Bytes) : Call SSFError AggregatedSignature :=
  if signatures.isEmpty then Call.fail (.signatureError "No signatures to aggregate")
  else do
    let acc : Accumulator G K ← signatures.foldlM (self.addEntry message) .new
    match acc.aggregateSignature with
    | none => Call.fail (.signatureError "Failed to create aggregate")
    | some aggregateSignature =>
      return {
        signature := SignatureCodec.compress aggregateSignature
        publicKeys := acc.publicKeys
        message
        participants := acc.participants
        totalStake := acc.totalStake }

def PartialAggregate.new : PartialAggregate G where
  signature := none
  participants := []
  totalStake := 0

def addToAggregate (aggregate : Option G) (signature : G) : Call SSFError G :=
  match aggregate with
  | none => .ok signature
  | some aggregate => blstResult "Failed to add: " (Bls.addSignature aggregate signature)

/-- The turn of the loop of `aggregate_chunk`. The key is only looked up: no signature is
verified. -/
def addToChunk (publicKeys : HashMap UInt64 K) (acc : PartialAggregate G)
    (sigData : SignatureData) : Call SSFError (PartialAggregate G) := do
  let signature ← blstResult "Invalid signature: " (Bls.sigValidate sigData.signature)
  match publicKeys.lookup sigData.validatorIndex with
  | none => Call.fail (.signatureError "Public key not found")
  | some _ => do
    let aggregate ← addToAggregate acc.signature signature
    let totalStake ← acc.totalStake.add sigData.stake
    return {
      signature := some aggregate
      participants := acc.participants ++ [sigData.validatorIndex]
      totalStake }

def aggregateChunk (publicKeys : HashMap UInt64 K) (chunk : List SignatureData) :
    Call SSFError (PartialAggregate G) :=
  chunk.foldlM (addToChunk publicKeys) PartialAggregate.new

def receive (partials : List (PartialAggregate G)) (result : Call SSFError (PartialAggregate G)) :
    Call SSFError (List (PartialAggregate G)) :=
  match result with
  | .ok part => .ok (partials ++ [part])
  | .error (.err e) => Call.fail e
  | .error _ => .ok partials

def mergeSignature (aggregate part : Option G) : Call SSFError (Option G) :=
  match part, aggregate with
  | none, _ => .ok aggregate
  | some sig, none => .ok (some sig)
  | some sig, some aggregate => do
    let temp ← blstResult "Merge failed: " (SignatureCodec.fromBytes (SignatureCodec.compress sig))
    let aggregate ← blstResult "Merge failed: " (Bls.addSignature aggregate temp)
    return some aggregate

def mergePartial (acc part : PartialAggregate G) : Call SSFError (PartialAggregate G) := do
  let signature ← mergeSignature acc.signature part.signature
  let totalStake ← acc.totalStake.add part.totalStake
  return { signature, participants := acc.participants ++ part.participants, totalStake }

def mergePartialAggregates (partials : List (PartialAggregate G)) (message : Bytes) :
    Call SSFError AggregatedSignature := do
  let merged ← partials.foldlM mergePartial PartialAggregate.new
  match merged.signature with
  | none => Call.fail (.signatureError "No signatures aggregated")
  | some aggregate =>
    return {
      signature := SignatureCodec.compress aggregate
      publicKeys := []
      message
      participants := merged.participants
      totalStake := merged.totalStake }

def chunkSize (n workers : Nat) : Checked Nat := do
  let sum ← addUsize n workers
  let sum ← subUsize sum 1
  divUsize sum workers

variable (G) in
def aggregateParallel (self : BLSAggregation K) (arrival : Arrival)
    (signatures : List SignatureData) (message : Bytes) (workers : Nat) :
    Call SSFError AggregatedSignature :=
  if signatures.isEmpty then Call.fail (.signatureError "No signatures to aggregate")
  else do
    let size ← chunkSize signatures.length workers
    let partials : List (PartialAggregate G) ←
      ((arrival.order (Blocks.chunks size signatures)).map
        (aggregateChunk self.publicKeys)).foldlM receive []
    mergePartialAggregates partials message

/-- The turn of the loop of `merge_aggregated_signatures`, with the sum of the signatures. -/
def mergeAggregated (acc : G × AggregatedSignature) (agg : AggregatedSignature) :
    Call SSFError (G × AggregatedSignature) := do
  let sig ← blstResult "Invalid aggregate: " (SignatureCodec.fromBytes agg.signature)
  let sum ← blstResult "Merge failed: " (Bls.addSignature acc.1 sig)
  let totalStake ← acc.2.totalStake.add agg.totalStake
  return (sum, { acc.2 with
    participants := acc.2.participants ++ agg.participants
    publicKeys := acc.2.publicKeys ++ agg.publicKeys
    totalStake })

variable (G) in
def mergeAggregatedSignatures : List AggregatedSignature → Call SSFError AggregatedSignature
  | [] => Call.fail (.signatureError "No signatures to merge")
  | [single] => .ok single
  | first :: rest => do
    let sig : G ← blstResult "Invalid aggregate: " (SignatureCodec.fromBytes first.signature)
    let merged ← rest.foldlM mergeAggregated (sig, first)
    return { merged.2 with signature := SignatureCodec.compress merged.1 }

variable (G) in
def aggregateBatched (self : BLSAggregation K) (sigs : List SignatureData) (message : Bytes)
    (batchSize : Nat) : Call SSFError AggregatedSignature :=
  if batchSize = 0 then .error (.panic .assertion)
  else do
    let batches ← (Blocks.chunks batchSize sigs).mapM fun batch =>
      self.aggregateSequential G batch message
    mergeAggregatedSignatures G batches

variable (G) in
def aggregateTree (self : BLSAggregation K) (message : Bytes) :
    Nat → List SignatureData → Call SSFError AggregatedSignature
  | 0, sigs => self.aggregateSequential G sigs message
  | depth + 1, sigs =>
    if sigs.length ≤ 2 then self.aggregateSequential G sigs message
    else do
      let mid := sigs.length / 2
      let leftAgg ← aggregateTree self message depth (sigs.take mid)
      let rightAgg ← aggregateTree self message depth (sigs.drop mid)
      mergeAggregatedSignatures G [leftAgg, rightAgg]

variable (G) in
def aggregate (self : BLSAggregation K) (arrival : Arrival) (sigs : List SignatureData)
    (message : Bytes) : Call SSFError AggregatedSignature :=
  match self.aggregationStrategy with
  | .sequential => self.aggregateSequential G sigs message
  | .parallel workers => self.aggregateParallel G arrival sigs message workers
  | .batched batchSize => self.aggregateBatched G sigs message batchSize
  | .tree depth => self.aggregateTree G message depth sigs

def totalStake (entries : List SignatureData) : Nat := (entries.map (·.stake.toNat)).sum

structure Aggregates (entries : List SignatureData) (participants : List UInt64) (stake : U256) :
    Prop where
  participants_eq : participants = entries.map (·.validatorIndex)
  stake_eq : stake.toNat = totalStake entries

theorem Aggregates.nil : Aggregates [] [] 0 := ⟨rfl, rfl⟩

theorem Aggregates.single (sig : SignatureData) : Aggregates [sig] [sig.validatorIndex] sig.stake :=
  ⟨rfl, (add_zero _).symm⟩

theorem Aggregates.append {parts parts' : List UInt64}
    (h : Aggregates es parts stake) (h' : Aggregates es' parts' stake')
    (hsum : stake.add stake' = .ok sum) :
    Aggregates (es ++ es') (parts ++ parts') sum where
  participants_eq := by rw [h.participants_eq, h'.participants_eq, map_append]
  stake_eq := by
    rw [U256.add_eq_ok.mp hsum, h.stake_eq, h'.stake_eq, totalStake, totalStake, totalStake,
      map_append, sum_append]

variable {α : Type}

theorem blstResult_eq_ok {r : Except String α} : blstResult text r = .ok a ↔ r = .ok a :=
  Except.mapError_eq_ok

theorem blstResult_ne_panic {r : Except String α}
    (h : blstResult text r = .error stop) : ∃ e, stop = .err e := by
  cases r with
  | ok a => cases h
  | error e =>
    cases h
    exact ⟨_, rfl⟩

omit [Bls G K] in
theorem getPublicKey_eq_ok {s : BLSAggregation K} :
    s.getPublicKey validatorIndex = .ok pubkey ↔
      s.publicKeys.lookup validatorIndex = some pubkey := by
  unfold getPublicKey
  cases s.publicKeys.lookup validatorIndex with
  | none => simp [Call.fail]
  | some key => simp

variable (G) in
/-- The signature parses, its key is registered and it verifies. -/
def verifies (self : BLSAggregation K) (message : Bytes) (sigData : SignatureData) : Bool :=
  match (Bls.sigValidate sigData.signature : Except String G),
    self.publicKeys.lookup sigData.validatorIndex with
  | .ok signature, some pubkey => Bls.verify signature pubkey message self.domain
  | _, _ => false

section
variable {s : BLSAggregation K} {message : Bytes} {acc acc' : Accumulator G K}

section
variable (h : Aggregates es acc.participants acc.totalStake)
include h

theorem Accumulator.aggregates_push {aggregateSignature : G} {aggregatePubkey : Option K}
    (hpush : acc.push aggregateSignature aggregatePubkey sig pubkey = .ok acc') :
    Aggregates (es ++ [sig]) acc'.participants acc'.totalStake := by
  obtain ⟨stake, hadd, hpush⟩ := Call.checked_bind_eq_ok.mp hpush
  cases hpush
  exact h.append (.single sig) hadd

theorem Accumulator.aggregates_add [LawfulBls G K] (hadd : acc.add sig pubkey sigData = .ok acc') :
    Aggregates (es ++ [sigData]) acc'.participants acc'.totalStake := by
  unfold Accumulator.add at hadd
  cases hagg : acc.aggregateSignature with
  | none =>
    rw [hagg] at hadd
    exact aggregates_push h hadd
  | some aggregateSignature =>
    obtain ⟨sum, hsum⟩ := LawfulBls.addSignature_ok aggregateSignature sig
    rw [hagg] at hadd
    dsimp only at hadd
    rw [hsum] at hadd
    obtain ⟨aggregatePubkey, -, hadd⟩ := hadd.of_bind
    exact aggregates_push h hadd

theorem aggregates_addEntry [LawfulBls G K] (hturn : s.addEntry message acc sigData = .ok acc') :
    Aggregates (es ++ [sigData].filter (s.verifies G message)) acc'.participants
      acc'.totalStake := by
  obtain ⟨sig, hsig, hturn⟩ := hturn.of_bind
  obtain ⟨pubkey, hpk, hturn⟩ := hturn.of_bind
  rw [blstResult_eq_ok] at hsig
  rw [getPublicKey_eq_ok] at hpk
  have hver : s.verifies G message sigData =
      Bls.verify sig pubkey message s.domain := by
    rw [verifies, hsig, hpk]
  cases hverify : Bls.verify sig pubkey message s.domain with
  | false =>
    rw [hverify] at hturn hver
    cases hturn
    rwa [filter_singleton, hver, Bool.cond_false, append_nil]
  | true =>
    rw [hverify] at hturn hver
    rw [filter_singleton, hver]
    exact Accumulator.aggregates_add h hturn

end

theorem aggregates_aggregateSequential [LawfulBls G K]
    (h : s.aggregateSequential G sigs message = .ok result) :
    Aggregates (sigs.filter (s.verifies G message)) result.participants result.totalStake := by
  obtain ⟨-, h⟩ := Call.guard_eq_ok.mp h
  obtain ⟨acc, hacc, h⟩ := h.of_bind
  have hloop := Call.foldlM_eq_ok_induction_self
    (P := fun done (acc : Accumulator G K) =>
      Aggregates (done.filter (s.verifies G message)) acc.participants acc.totalStake)
    (fun hdone hturn => filter_append .. ▸ aggregates_addEntry hdone hturn)
    (b := Accumulator.new) .nil hacc
  cases hagg : acc.aggregateSignature with
  | none =>
    rw [hagg] at h
    cases h
  | some aggregateSignature =>
    rw [hagg] at h
    cases h
    exact hloop

variable (G) in
structure Mergeable (P : List SignatureData → AggregatedSignature → Prop) : Prop where
  parsed {part : List SignatureData} {agg : AggregatedSignature} {sig : G} : P part agg →
    SignatureCodec.fromBytes agg.signature = .ok sig →
      P part { agg with signature := SignatureCodec.compress sig }
  merged {part part' : List SignatureData} {acc acc' : G × AggregatedSignature}
    {agg : AggregatedSignature} : P part { acc.2 with signature := SignatureCodec.compress acc.1 } →
      P part' agg → mergeAggregated acc agg = .ok acc' →
        P (part ++ part') { acc'.2 with signature := SignatureCodec.compress acc'.1 }

namespace Mergeable
variable {P : List SignatureData → AggregatedSignature → Prop} (H : Mergeable G P)
include H

theorem mergeAggregatedSignatures (hpar : List.Forall₂ P parts aggregated)
    (h : mergeAggregatedSignatures G aggregated = .ok result) : P parts.flatten result := by
  cases hpar with
  | nil => cases h
  | @cons part first parts rest hfst hrest =>
    cases hrest with
    | nil =>
      cases h
      rwa [flatten_singleton]
    | cons hsec hrest =>
      obtain ⟨sig, hsig, h⟩ := h.of_bind
      obtain ⟨merged, hmer, h⟩ := h.of_bind
      cases h
      exact Call.foldlM_eq_ok_induction
        (P := fun done (acc : G × AggregatedSignature) =>
          P done.flatten { acc.2 with signature := SignatureCodec.compress acc.1 })
        (fun {done part _ _ _} hdone hpart hturn => by
          rw [flatten_append, flatten_singleton]
          exact H.merged hdone hpart hturn)
        (.cons hsec hrest) [part]
        (by
          rw [flatten_singleton]
          exact H.parsed hfst (blstResult_eq_ok.mp hsig))
        hmer

variable (hseq : ∀ {part agg}, s.aggregateSequential G part message = .ok agg → P part agg)
  {sigs : List SignatureData} {result : AggregatedSignature}
include hseq

theorem aggregateBatched (h : s.aggregateBatched G sigs message batchSize = .ok result) :
    P sigs result := by
  unfold BLSAggregation.aggregateBatched at h
  split_ifs at h with hzero
  obtain ⟨batches, hbats, h⟩ := h.of_bind
  have hpar := (Call.forall₂_of_mapM_eq_ok hbats).imp fun _ _ => hseq
  rw [← Blocks.flatten_chunks (Nat.pos_of_ne_zero hzero) sigs]
  exact H.mergeAggregatedSignatures hpar h

theorem aggregateTree (h : s.aggregateTree G message depth sigs = .ok result) : P sigs result := by
  induction depth generalizing sigs result with
  | zero => exact hseq h
  | succ depth ih =>
    rw [BLSAggregation.aggregateTree] at h
    split_ifs at h with hsm
    · exact hseq h
    · obtain ⟨leftAgg, hleft, h⟩ := h.of_bind
      obtain ⟨rightAgg, hrig, h⟩ := h.of_bind
      have hmer := H.mergeAggregatedSignatures (.cons (ih hleft) (.cons (ih hrig) .nil)) h
      rwa [flatten_cons, flatten_singleton, take_append_drop] at hmer

end Mergeable

theorem mergeable_aggregates : Mergeable G fun part agg =>
    Aggregates (part.filter (s.verifies G message)) agg.participants agg.totalStake where
  parsed h _ := h
  merged h hagg hturn := by
    obtain ⟨sig, -, hturn⟩ := hturn.of_bind
    obtain ⟨sum, -, hturn⟩ := hturn.of_bind
    obtain ⟨stake, hadd, hturn⟩ := Call.checked_bind_eq_ok.mp hturn
    cases hturn
    rw [filter_append]
    exact h.append hagg hadd

def Fits (chunk : List SignatureData) : Prop := totalStake chunk < 2 ^ 256

instance : DecidablePred Fits := fun chunk =>
  inferInstanceAs (Decidable (totalStake chunk < 2 ^ 256))

section
variable {publicKeys : HashMap UInt64 K} {acc : PartialAggregate G}

theorem aggregates_addToChunk {acc' : PartialAggregate G}
    (h : Aggregates es acc.participants acc.totalStake)
    (hturn : addToChunk publicKeys acc sigData = .ok acc') :
    Aggregates (es ++ [sigData]) acc'.participants acc'.totalStake := by
  obtain ⟨sig, -, hturn⟩ := hturn.of_bind
  cases hkey : publicKeys.lookup sigData.validatorIndex with
  | none =>
    rw [hkey] at hturn
    cases hturn
  | some pubkey =>
    rw [hkey] at hturn
    obtain ⟨agg, -, hturn⟩ := hturn.of_bind
    obtain ⟨stake, hadd, hturn⟩ := Call.checked_bind_eq_ok.mp hturn
    cases hturn
    exact h.append (.single sigData) hadd

variable {chunk : List SignatureData}

theorem aggregates_aggregateChunk {part : PartialAggregate G}
    (h : aggregateChunk publicKeys chunk = .ok part) :
    Aggregates chunk part.participants part.totalStake :=
  Call.foldlM_eq_ok_induction_self
    (P := fun done (acc : PartialAggregate G) => Aggregates done acc.participants acc.totalStake)
    aggregates_addToChunk (b := PartialAggregate.new) .nil h

variable {stop : Stop SSFError}

theorem addToAggregate_ne_panic {agg : Option G}
    (h : addToAggregate agg sig = .error stop) : ∃ e, stop = .err e := by
  cases agg with
  | none => cases h
  | some agg => exact blstResult_ne_panic h

theorem le_of_addToChunk_eq_error (h : addToChunk publicKeys acc sigData = .error stop)
    (hstop : ¬∃ e, stop = .err e) : 2 ^ 256 ≤ acc.totalStake.toNat + sigData.stake.toNat := by
  obtain h | ⟨sig, -, h⟩ := Except.bind_eq_error.mp h
  · exact absurd (blstResult_ne_panic h) hstop
  cases hkey : publicKeys.lookup sigData.validatorIndex with
  | none =>
    rw [hkey] at h
    cases h
    exact absurd ⟨_, rfl⟩ hstop
  | some pubkey =>
    rw [hkey] at h
    obtain h | ⟨agg, -, h⟩ := Except.bind_eq_error.mp h
    · exact absurd (addToAggregate_ne_panic h) hstop
    · cases hadd : acc.totalStake.add sigData.stake with
      | error p => exact U256.le_of_add_eq_error hadd
      | ok sum =>
        rw [hadd] at h
        cases h

theorem le_of_foldlM_addToChunk_eq_error
    (h : chunk.foldlM (addToChunk publicKeys) acc = .error stop) (hstop : ¬∃ e, stop = .err e)
    (hacc : Aggregates es acc.participants acc.totalStake) :
    2 ^ 256 ≤ totalStake (es ++ chunk) := by
  induction chunk generalizing acc es with
  | nil => cases h
  | cons sigData chunk ih =>
    obtain h | ⟨next, hnext, h⟩ := Except.bind_eq_error.mp h
    · have hle := le_of_addToChunk_eq_error h hstop
      rw [hacc.stake_eq] at hle
      simp only [totalStake, map_append, map_cons, sum_append, sum_cons] at hle ⊢
      omega
    · have hle := ih h (aggregates_addToChunk hacc hnext)
      rwa [append_assoc] at hle

theorem not_fits_of_aggregateChunk_eq_error
    (h : (aggregateChunk publicKeys chunk : Call SSFError (PartialAggregate G)) = .error stop)
    (hstop : ¬∃ e, stop = .err e) : ¬Fits chunk :=
  not_lt.mpr (le_of_foldlM_addToChunk_eq_error h hstop .nil)

theorem fits_of_aggregateChunk_eq_ok {part : PartialAggregate G}
    (h : aggregateChunk publicKeys chunk = .ok part) : Fits chunk := by
  rw [Fits, ← (aggregates_aggregateChunk h).stake_eq]
  exact part.totalStake.isLt

theorem forall₂_receive {partials partials' : List (PartialAggregate G)}
    (h : List.Forall₂ (fun chunk part => Aggregates chunk part.participants part.totalStake)
      (done.filter Fits) partials)
    (hturn : receive partials (aggregateChunk publicKeys chunk) = .ok partials') :
    List.Forall₂ (fun chunk part => Aggregates chunk part.participants part.totalStake)
      ((done ++ [chunk]).filter Fits) partials' := by
  rw [filter_append, filter_singleton]
  cases hchk : (aggregateChunk publicKeys chunk : Call SSFError (PartialAggregate G)) with
  | ok part =>
    rw [hchk] at hturn
    cases hturn
    rw [decide_eq_true (fits_of_aggregateChunk_eq_ok hchk)]
    exact rel_append h (.cons (aggregates_aggregateChunk hchk) .nil)
  | error stop =>
    rw [hchk] at hturn
    have hstop : ¬∃ e, stop = .err e := by
      rintro ⟨e, rfl⟩
      cases hturn
    rw [decide_eq_false (not_fits_of_aggregateChunk_eq_error hchk hstop), Bool.cond_false,
      append_nil]
    cases stop with
    | err e => exact absurd ⟨e, rfl⟩ hstop
    | panic p =>
      cases hturn
      exact h
    | overflow =>
      cases hturn
      exact h

end

theorem aggregates_mergePartial {acc acc' part : PartialAggregate G}
    (h : Aggregates es acc.participants acc.totalStake)
    (hpart : Aggregates chunk part.participants part.totalStake)
    (hturn : mergePartial acc part = .ok acc') :
    Aggregates (es ++ chunk) acc'.participants acc'.totalStake := by
  obtain ⟨sig, -, hturn⟩ := hturn.of_bind
  obtain ⟨stake, hadd, hturn⟩ := Call.checked_bind_eq_ok.mp hturn
  cases hturn
  exact h.append hpart hadd

theorem aggregates_mergePartialAggregates {partials : List (PartialAggregate G)}
    (hpar : List.Forall₂ (fun chunk part => Aggregates chunk part.participants part.totalStake)
      parts partials) (h : mergePartialAggregates partials message = .ok result) :
    Aggregates parts.flatten result.participants result.totalStake := by
  obtain ⟨merged, hmer, h⟩ := h.of_bind
  have hloop := Call.foldlM_eq_ok_induction
    (P := fun done (acc : PartialAggregate G) =>
      Aggregates done.flatten acc.participants acc.totalStake)
    (fun {done part _ _ _} hdone hpart hturn => by
      rw [flatten_append, flatten_singleton]
      exact aggregates_mergePartial hdone hpart hturn)
    hpar [] (b := PartialAggregate.new) .nil hmer
  cases hsig : merged.signature with
  | none =>
    rw [hsig] at h
    cases h
  | some agg =>
    rw [hsig] at h
    cases h
    exact hloop

theorem chunkSize_eq_ok (h : chunkSize n workers = .ok size) :
    size = (n + workers - 1) / workers := by
  obtain ⟨sum, hsum, h⟩ := h.of_bind
  obtain ⟨sum', hsum', h⟩ := h.of_bind
  rw [addUsize_eq_ok] at hsum
  unfold subUsize at hsum'
  unfold divUsize at h
  split_ifs at hsum'
  split_ifs at h
  cases hsum'
  cases h
  rw [hsum.1]

def survivors (signatures : List SignatureData) (workers : Nat) : List SignatureData :=
  ((Blocks.chunks ((signatures.length + workers - 1) / workers) signatures).filter Fits).flatten

theorem aggregates_aggregateParallel {arrival : Arrival}
    (h : s.aggregateParallel G arrival sigs message workers = .ok result) :
    ∃ es, es.Perm (survivors sigs workers) ∧
      Aggregates es result.participants result.totalStake := by
  obtain ⟨-, h⟩ := Call.guard_eq_ok.mp h
  obtain ⟨size, hsize, h⟩ := Call.checked_bind_eq_ok.mp h
  obtain ⟨partials, hpar, h⟩ := h.of_bind
  have hloop := Call.foldlM_eq_ok_induction
    (R := fun chunk result => result = aggregateChunk s.publicKeys chunk)
    (P := fun done (partials : List (PartialAggregate G)) =>
      List.Forall₂ (fun chunk part => Aggregates chunk part.participants part.totalStake)
        (done.filter Fits) partials)
    (fun hdone hres hturn => forall₂_receive hdone (hres ▸ hturn))
    (forall₂_map_right_iff.mpr (forall₂_same.mpr fun _ _ => rfl))
    [] .nil hpar
  refine ⟨_, ?_, aggregates_mergePartialAggregates hloop h⟩
  rw [survivors, ← chunkSize_eq_ok hsize]
  exact ((arrival.perm _).filter _).flatten

variable (G) in
/-- The sigs that a strategy aggregates. -/
def accepted (self : BLSAggregation K) (sigs : List SignatureData) (message : Bytes) :
    List SignatureData :=
  match self.aggregationStrategy with
  | .parallel workers => survivors sigs workers
  | _ => sigs.filter (self.verifies G message)

variable (G) in
structure Correct (bls : BLSAggregation K) (sigs : List SignatureData) (message : Bytes)
    (result : AggregatedSignature) : Prop where
  verified : ∀ index ∈ result.participants, ∃ sigData ∈ sigs,
    sigData.validatorIndex = index ∧ bls.verifies G message sigData
  nodup : result.participants.Nodup
  /-- The stake counts one entry for each participant. -/
  stake : ∃ entries ⊆ sigs, (entries.map (·.validatorIndex)).Nodup ∧
    (∀ index, index ∈ entries.map (·.validatorIndex) ↔ index ∈ result.participants) ∧
    result.totalStake.toNat = totalStake entries

theorem aggregates_aggregate [LawfulBls G K] (h : s.aggregate G arrival sigs message = .ok result) :
    ∃ es, es.Perm (s.accepted G sigs message) ∧
      Aggregates es result.participants result.totalStake := by
  unfold aggregate at h
  unfold accepted
  cases hstr : s.aggregationStrategy with
  | sequential =>
    rw [hstr] at h
    exact ⟨_, .refl _, aggregates_aggregateSequential h⟩
  | parallel workers =>
    rw [hstr] at h
    exact aggregates_aggregateParallel h
  | batched batchSize =>
    rw [hstr] at h
    exact ⟨_, .refl _, mergeable_aggregates.aggregateBatched aggregates_aggregateSequential h⟩
  | tree depth =>
    rw [hstr] at h
    exact ⟨_, .refl _, mergeable_aggregates.aggregateTree aggregates_aggregateSequential h⟩

theorem mem_of_mem_chunks {sigs chunk : List SignatureData} (hchk : chunk ∈ Blocks.chunks size sigs)
    (h : sig ∈ chunk) : sig ∈ sigs := by
  obtain ⟨i, -, rfl⟩ := mem_map.mp hchk
  exact mem_of_mem_drop (mem_of_mem_take h)

theorem accepted_subset (s : BLSAggregation K) (sigs : List SignatureData)
    (message : Bytes) : s.accepted G sigs message ⊆ sigs := by
  unfold accepted
  cases s.aggregationStrategy with
  | parallel workers =>
    intro sig h
    obtain ⟨chunk, hchk, h⟩ := mem_flatten.mp h
    exact mem_of_mem_chunks (mem_of_mem_filter hchk) h
  | _ => exact filter_sublist.subset

end

end

/-- An aggregate is right exactly if no validator has two of the entries it is made of, and each
validator of these entries has a signature in the list that verifies. -/
theorem aggregate_correct_iff {G K : Type} [Bls G K] [LawfulBls G K] (s : BLSAggregation K)
    (arrival : Arrival) (sigs : List SignatureData) (message : Bytes)
    {result : AggregatedSignature} (h : s.aggregate G arrival sigs message = .ok result) :
    s.Correct G sigs message result ↔
      ((s.accepted G sigs message).map (·.validatorIndex)).Nodup ∧
        ∀ entry ∈ s.accepted G sigs message, ∃ sig ∈ sigs,
          sig.validatorIndex = entry.validatorIndex ∧ s.verifies G message sig := by
  obtain ⟨es, hperm, hagg⟩ := aggregates_aggregate h
  have hnd : result.participants.Nodup ↔
      ((s.accepted G sigs message).map (·.validatorIndex)).Nodup := by
    rw [hagg.participants_eq]
    exact (hperm.map _).nodup_iff
  have hver : (∀ index ∈ result.participants, ∃ sig ∈ sigs,
        sig.validatorIndex = index ∧ s.verifies G message sig) ↔
      ∀ entry ∈ s.accepted G sigs message, ∃ sig ∈ sigs,
        sig.validatorIndex = entry.validatorIndex ∧ s.verifies G message sig := by
    rw [hagg.participants_eq, forall_mem_map]
    exact forall_congr' fun entry => imp_congr_left hperm.mem_iff
  constructor
  · intro hcor
    exact ⟨hnd.mp hcor.nodup, hver.mp hcor.verified⟩
  · rintro ⟨huni, hsgn⟩
    have hdis := hnd.mpr huni
    refine ⟨hver.mpr hsgn, hdis, es, ?_, ?_, ?_, hagg.stake_eq⟩
    · exact List.Subset.trans hperm.subset (s.accepted_subset sigs message)
    · rwa [← hagg.participants_eq]
    · intro index
      rw [hagg.participants_eq]

namespace Sample

/-- A signature and a key are a byte, and a signature verifies if it is its key. -/
scoped instance : Bls UInt8 UInt8 where
  fromBytes bytes := .ok (bytes.headD 0)
  compress g := [g]
  sigValidate bytes := .ok (bytes.headD 0)
  verify g key _ _ := g == key
  addSignature g g' := .ok (g + g')
  addPublicKey key key' := .ok (key + key')
  keyBytes key := [key]

scoped instance : LawfulBls UInt8 UInt8 := ⟨fun g g' => ⟨g + g', rfl⟩⟩

def inOrder : Arrival := ⟨id, .refl⟩

def aggregation (aggregationStrategy : AggregationStrategy) : BLSAggregation UInt8 where
  domain := []
  publicKeys := (Finmap.singleton 0 10).insert 1 11
  aggregationStrategy

theorem aggregate_correct_two :
    (aggregation .sequential).Correct UInt8 [⟨0, [10], 32⟩, ⟨1, [11], 32⟩] []
      ⟨[21], [[10], [11]], [], [0, 1], 64⟩ :=
  (aggregate_correct_iff (G := UInt8) (aggregation .sequential) inOrder
    [⟨0, [10], 32⟩, ⟨1, [11], 32⟩] [] rfl).mpr ⟨by decide, by decide⟩

/-- The first aggregate is by the default strategy, from a signature that does not verify. In the
second a signature was sent twice. -/
theorem aggregate_forged_repeated :
    (aggregation (.parallel 4)).aggregate UInt8 inOrder [⟨0, [99], 32⟩] [] =
        .ok ⟨[99], [], [], [0], 32⟩ ∧
      ¬(aggregation (.parallel 4)).Correct UInt8 [⟨0, [99], 32⟩] [] ⟨[99], [], [], [0], 32⟩ ∧
      (aggregation .sequential).aggregate UInt8 inOrder [⟨0, [10], 32⟩, ⟨0, [10], 32⟩] [] =
        .ok ⟨[20], [[10], [10]], [], [0, 0], 64⟩ ∧
      ¬(aggregation .sequential).Correct UInt8 [⟨0, [10], 32⟩, ⟨0, [10], 32⟩] []
        ⟨[20], [[10], [10]], [], [0, 0], 64⟩ := by
  refine ⟨rfl, fun h => ?_, rfl, fun h => ?_⟩
  · have hver := h.verified 0 mem_cons_self
    revert hver
    decide
  · have hnd := h.nodup
    revert hnd
    decide

end Sample

end BLSAggregation

end EthereumRust.Ssf
