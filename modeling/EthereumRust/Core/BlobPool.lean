import EthereumRust.Core.BlobGas
import EthereumRust.Lib.Highest
import EthereumRust.Lib.History

/-!
# The pool of blob transactions (`crates/core`: `eip7691.rs`)

The pool is kept in falling order of the priority fee. A full pool drops its last transaction before
it takes a new one, whatever the new one pays.
-/

namespace EthereumRust.Core

open Rust Rust.Method List

inductive Eip7691Error where
  | tooManyBlobs (count : Nat) (maximum : UInt64)
  | invalidBlobGas (gas multiple : UInt64)
  | excessBlobGas (gas maximum : UInt64)
  | invalidVersionedHash
  deriving DecidableEq, Repr

def BlobGasConfig.maxBlobsPerBlock (self : BlobGasConfig) : Checked UInt64 :=
  divU64 self.maxBlobGasPerBlock self.blobGasPerBlob

structure BlobTransactionData where
  blobVersionedHashes : List H256
  maxFeePerBlobGas : U256
  deriving DecidableEq

namespace BlobTransactionData

def blobCount (self : BlobTransactionData) : Nat := self.blobVersionedHashes.length

def blobGasUsed (self : BlobTransactionData) : Checked UInt64 :=
  mulU64 (.ofNat self.blobCount) blobGasPerBlob

def validateAgainstConfig (self : BlobTransactionData) (config : BlobGasConfig) :
    Checked (Except Eip7691Error Unit) := do
  let maxBlobs ← config.maxBlobsPerBlock
  if self.blobCount > maxBlobs.toNat then
    return .error (.tooManyBlobs self.blobCount maxBlobs)
  else
    let gasUsed ← self.blobGasUsed
    if gasUsed > config.maxBlobGasPerBlock then
      return .error (.excessBlobGas gasUsed config.maxBlobGasPerBlock)
    else return .ok ()

end BlobTransactionData

structure BlobEntry where
  txHash : H256
  blobData : BlobTransactionData
  priorityFee : U256
  deriving DecidableEq

structure BlobPool where
  transactions : List BlobEntry
  config : BlobGasConfig
  maxPoolSize : Nat
  deriving DecidableEq

namespace BlobPool

def new (config : BlobGasConfig) (maxPoolSize : Nat) : BlobPool where
  transactions := []
  config
  maxPoolSize

def sortByPriority (self : BlobPool) : BlobPool :=
  { self with
    transactions := Batches.sortByKey (fun entry => OrderDual.toDual entry.priorityFee.toNat)
      self.transactions }

def evictLowestPriority (self : BlobPool) : BlobPool :=
  { self with transactions := self.transactions.dropLast }

def push (self : BlobPool) (entry : BlobEntry) : BlobPool :=
  { self with transactions := self.transactions ++ [entry] }

def isFull (self : BlobPool) : Bool := self.maxPoolSize ≤ self.transactions.length

def addTransaction (txHash : H256) (blobData : BlobTransactionData) (priorityFee : U256) :
    Method BlobPool Eip7691Error Unit := do
  let validated ← blobData.validateAgainstConfig (← read (·.config))
  result validated
  if ← read (·.isFull) then
    update (·.evictLowestPriority)
  update (·.push { txHash, blobData, priorityFee })
  update (·.sortByPriority)

def removeTransaction (txHash : H256) :
    Method BlobPool Eip7691Error (Option BlobTransactionData) := do
  match ← read (·.transactions.findIdx? (·.txHash == txHash)) with
  | none => return none
  | some pos =>
    let removed ← read (·.transactions[pos]?)
    update fun self => { self with transactions := self.transactions.eraseIdx pos }
    return removed.map (·.blobData)

inductive Call where
  | addTransaction (txHash : H256) (blobData : BlobTransactionData) (priorityFee : U256)
  | removeTransaction (txHash : H256)

def perform (self : BlobPool) : Call → Option BlobPool
  | .addTransaction txHash blobData priorityFee =>
    (addTransaction txHash blobData priorityFee self).state?
  | .removeTransaction txHash => (removeTransaction txHash self).state?

def fees (self : BlobPool) : List Nat := self.transactions.map (·.priorityFee.toNat)

structure Bounded (pool : BlobPool) : Prop where
  sorted : pool.fees.Pairwise (· ≥ ·)
  size : pool.transactions.length ≤ pool.maxPoolSize

def KeepsHighest (self : BlobPool) : Call → Prop
  | .addTransaction txHash blobData priorityFee => ∀ self',
    addTransaction txHash blobData priorityFee self = .ok () self' → self.isFull = true →
      self'.fees = Highest.highest self.maxPoolSize (self.fees ++ [priorityFee.toNat])
  | .removeTransaction _ => True

/-- After the call the pool is sorted and within its size, and has kept the highest fees. -/
def Upheld (self : BlobPool) (call : Call) : Prop :=
  (∀ self' ∈ self.perform call, self'.Bounded) ∧ self.KeepsHighest call

/-- A transaction that is added finds room for at least one, and does not pay less than what a full
pool drops for it. -/
def PaysEnough (self : BlobPool) : Call → Prop
  | .addTransaction _ blobData priorityFee =>
    blobData.validateAgainstConfig self.config = .ok (.ok ()) →
      0 < self.maxPoolSize ∧
        (self.isFull = true → ∀ lowest ∈ self.fees.getLast?, lowest ≤ priorityFee.toNat)
  | .removeTransaction _ => True

section
variable {s : BlobPool} {txHash : H256}

def withEntry (self : BlobPool) (entry : BlobEntry) : BlobPool :=
  ((if self.isFull then self.evictLowestPriority else self).push entry).sortByPriority

theorem addTransaction_of_valid (h : blobData.validateAgainstConfig s.config = .ok (.ok ())) :
    addTransaction txHash blobData priorityFee s =
      .ok () (s.withEntry { txHash, blobData, priorityFee }) := by
  rw [addTransaction, bind_read, bind_checked_of_ok h, bind_result_of_ok rfl, bind_read]
  unfold withEntry
  cases s.isFull <;> rfl

theorem addTransaction_of_not_valid (h : blobData.validateAgainstConfig s.config ≠ .ok (.ok ())) :
    (∃ p, addTransaction txHash blobData priorityFee s = .panic p) ∨
      ∃ e, addTransaction txHash blobData priorityFee s = .err e s := by
  rw [addTransaction, bind_read]
  cases hvld : blobData.validateAgainstConfig s.config with
  | error p => exact .inl ⟨p, bind_checked_of_error rfl⟩
  | ok validated =>
    rw [bind_checked_of_ok rfl]
    cases validated with
    | error e => exact .inr ⟨e, bind_of_err rfl⟩
    | ok => exact absurd hvld h

theorem perform_removeTransaction (h : s.perform (.removeTransaction txHash) = some s') :
    s'.transactions.Sublist s.transactions ∧ s'.maxPoolSize = s.maxPoolSize := by
  rw [perform, removeTransaction, bind_read] at h
  cases hpos : s.transactions.findIdx? (·.txHash == txHash) with
  | none =>
    rw [hpos] at h
    cases h
    exact ⟨.refl _, rfl⟩
  | some pos =>
    rw [hpos] at h
    cases h
    exact ⟨eraseIdx_sublist .., rfl⟩

theorem sorted_fees_sortByPriority : s.sortByPriority.fees.Pairwise (· ≥ ·) := by
  have hsrt := Batches.sorted_sortByKey
    (fun entry : BlobEntry => OrderDual.toDual entry.priorityFee.toNat) s.transactions
  exact pairwise_map.mpr hsrt

theorem fees_sortByPriority_perm : s.sortByPriority.fees.Perm s.fees :=
  (Batches.perm_sortByKey _ _).map _

theorem fees_push : (s.push entry).fees = s.fees ++ [entry.priorityFee.toNat] := map_append

theorem fees_evictLowestPriority : s.evictLowestPriority.fees = s.fees.dropLast := map_dropLast

theorem fees_withEntry_perm (s : BlobPool) (entry : BlobEntry) :
    (s.withEntry entry).fees.Perm
      ((if s.isFull then s.fees.dropLast else s.fees) ++ [entry.priorityFee.toNat]) := by
  refine fees_sortByPriority_perm.trans ?_
  rw [fees_push]
  split_ifs
  · rw [fees_evictLowestPriority]
  · rfl

theorem maxPoolSize_withEntry : (s.withEntry entry).maxPoolSize = s.maxPoolSize := by
  unfold withEntry
  cases s.isFull <;> rfl

theorem length_fees (s : BlobPool) : s.fees.length = s.transactions.length := length_map _

theorem isFull_iff : s.isFull = true ↔ s.maxPoolSize ≤ s.transactions.length := decide_eq_true_iff

theorem size_withEntry_iff (h : s.Bounded) :
    (s.withEntry entry).transactions.length ≤ (s.withEntry entry).maxPoolSize ↔
      0 < s.maxPoolSize := by
  have hsize := h.size
  rw [← length_fees, (s.fees_withEntry_perm entry).length_eq, maxPoolSize_withEntry,
    length_append, length_singleton]
  split_ifs with hfull
  · rw [length_dropLast, length_fees]
    omega
  · rw [isFull_iff] at hfull
    rw [length_fees]
    omega

theorem fees_withEntry_eq_highest_iff (h : s.Bounded) (hpos : 0 < s.maxPoolSize)
    (hfull : s.isFull = true) :
    (s.withEntry entry).fees =
        Highest.highest s.maxPoolSize (s.fees ++ [entry.priorityFee.toNat]) ↔
      ∀ lowest ∈ s.fees.getLast?, lowest ≤ entry.priorityFee.toNat := by
  have hlen : s.fees.length = s.maxPoolSize := by
    rw [length_fees]
    exact le_antisymm h.size (isFull_iff.mp hfull)
  have hperm := s.fees_withEntry_perm entry
  rw [if_pos hfull] at hperm
  have hsrt : (s.withEntry entry).fees.Pairwise (· ≥ ·) := sorted_fees_sortByPriority
  have hfees := h.sorted
  generalize s.fees = fees at hlen hperm hfees
  obtain ⟨front, lowest, rfl⟩ : ∃ front lowest, fees = front ++ [lowest] :=
    (eq_nil_or_concat' fees).resolve_left (by rintro rfl; exact hpos.ne hlen)
  rw [dropLast_concat] at hperm
  rw [length_append, length_singleton] at hlen
  rw [← hlen, Highest.eq_highest_iff hfees hsrt hperm, getLast?_concat]
  simp

theorem upheld_removeTransaction (h : s.Bounded) : s.Upheld (.removeTransaction txHash) := by
  refine ⟨fun s' hself' => ?_, trivial⟩
  obtain ⟨hsub, hmax⟩ := perform_removeTransaction hself'
  exact ⟨h.sorted.sublist (hsub.map _), hmax ▸ hsub.length_le.trans h.size⟩

theorem upheld_addTransaction_of_valid (h : s.Bounded)
    (hvld : blobData.validateAgainstConfig s.config = .ok (.ok ())) :
    s.Upheld (.addTransaction txHash blobData priorityFee) ↔
      0 < s.maxPoolSize ∧
        (s.isFull = true → ∀ lowest ∈ s.fees.getLast?, lowest ≤ priorityFee.toNat) := by
  have hadd := @addTransaction_of_valid s txHash blobData priorityFee hvld
  have hperf : s.perform (.addTransaction txHash blobData priorityFee) =
      some (s.withEntry { txHash, blobData, priorityFee }) := congrArg Outcome.state? hadd
  constructor
  · intro huph
    have hpos := (size_withEntry_iff h).mp (huph.1 _ hperf).size
    refine ⟨hpos, fun hfull => ?_⟩
    exact (fees_withEntry_eq_highest_iff h hpos hfull).mp (huph.2 _ hadd hfull)
  · rintro ⟨hpos, hpays⟩
    refine ⟨fun s' hself' => ?_, fun s' hself' hfull => ?_⟩
    · cases hperf.symm.trans hself'
      exact ⟨sorted_fees_sortByPriority, (size_withEntry_iff h).mpr hpos⟩
    · cases hadd.symm.trans hself'
      exact (fees_withEntry_eq_highest_iff h hpos hfull).mpr (hpays hfull)

theorem upheld_addTransaction_of_not_valid (h : s.Bounded)
    (hvld : blobData.validateAgainstConfig s.config ≠ .ok (.ok ())) :
    s.Upheld (.addTransaction txHash blobData priorityFee) := by
  unfold Upheld perform KeepsHighest
  dsimp only
  obtain ⟨p, hpan⟩ | ⟨e, herr⟩ := @addTransaction_of_not_valid s txHash blobData priorityFee hvld
  · rw [hpan]
    refine ⟨fun s' hself' => ?_, fun s' hself' => ?_⟩
    · cases hself'
    · cases hself'
  · rw [herr]
    refine ⟨fun s' hself' => ?_, fun s' hself' => ?_⟩
    · cases hself'
      exact h
    · cases hself'

theorem upheld_iff (h : s.Bounded) : s.Upheld call ↔ s.PaysEnough call := by
  cases call with
  | removeTransaction txHash => exact iff_of_true (upheld_removeTransaction h) trivial
  | addTransaction txHash blobData priorityFee =>
    by_cases hvld : blobData.validateAgainstConfig s.config = .ok (.ok ())
    · rw [upheld_addTransaction_of_valid h hvld]
      exact ⟨fun hpays _ => hpays, fun hpays => hpays hvld⟩
    · exact iff_of_true (upheld_addTransaction_of_not_valid h hvld)
        fun hvld' => absurd hvld' hvld

/-- The pool is always in falling order, within its size, and holds the highest fees after every
call on a full pool exactly if every transaction that is added pays enough for that. -/
theorem always_upheld_iff (cfg : BlobGasConfig) (maxPoolSize : Nat) (calls : List Call) :
    ((new cfg maxPoolSize).Bounded ∧
        History.Along perform Upheld (new cfg maxPoolSize) calls) ↔
      History.Along perform PaysEnough (new cfg maxPoolSize) calls := by
  have hnew : (new cfg maxPoolSize).Bounded := ⟨.nil, Nat.zero_le _⟩
  rw [and_iff_right hnew]
  refine History.along_iff Bounded (fun _ call h => upheld_iff h) ?_ hnew
  intro s call s' _ huph hself'
  exact huph.1 s' hself'

end

/-- A full pool of one drops the higher fee for the lower. -/
theorem not_always_upheld_lower_fee :
    ¬History.Along perform Upheld (new .post7691 1)
      [.addTransaction H256.zero ⟨[], 0⟩ 2, .addTransaction H256.zero ⟨[], 0⟩ 1] := by
  rintro ⟨-, h⟩
  obtain ⟨huph, -⟩ := h _ rfl
  exact absurd (huph.2 _ rfl rfl) (by decide)

end BlobPool

end EthereumRust.Core
