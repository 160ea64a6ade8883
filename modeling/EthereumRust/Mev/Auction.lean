import EthereumRust.Lib.Batches
import EthereumRust.Mev.Bundle

/-!
# The bundle auction (`crates/mev/src/auction.rs`)

`run` goes through the valid bundles from the most valuable one down and takes each that fits into
the gas limit, is sent by none of the senders so far and is worth the minimum, until it has enough
of them or runs out of time.
-/

namespace EthereumRust.Mev

open Rust EthereumRust.Core List Method

/-- The duration is a parameter of `run` here, as the turns that begin too late. -/
structure AuctionConfig where
  minBidIncrement : U256 := 1000000000
  maxBundlesPerBlock : Nat := 5

structure Auction where
  config : AuctionConfig := {}

inductive ExclusionReason where
  | conflict
  | insufficientValue
  | gasLimit
  | invalid
  deriving DecidableEq

structure AuctionResult where
  winningBundles : List Bundle
  totalValue : U256
  gasUsed : UInt64
  excludedBundles : List (Bundle × ExclusionReason)
  deriving DecidableEq

structure Selection where
  selected : List Bundle := []
  totalGas : UInt64 := 0
  totalValue : U256 := 0
  usedAddresses : Finset Address := ∅
  excluded : List (Bundle × ExclusionReason)

def estimatedBaseFee : U256 := 30000000000

def rank (bundle : Bundle) : Nat :=
  match bundle.scoringValue estimatedBaseFee with
  | .ok value => value.toNat
  | .error _ => 0

/-- `sort_by` on the values, highest first. Each is computed to be compared, unless there is only
one bundle. -/
def sortByValue (bundles : List Bundle) : Checked (List Bundle) :=
  if bundles.length < 2 then .ok bundles
  else do
    let _ ← bundles.mapM (·.scoringValue estimatedBaseFee)
    return Batches.sortByKey (fun bundle => OrderDual.toDual (rank bundle)) bundles

theorem perm_sortByValue (h : sortByValue bundles = .ok sorted) : sorted.Perm bundles := by
  rw [sortByValue] at h
  split_ifs at h
  · cases h
    exact .refl _
  · obtain ⟨_, -, h⟩ := h.of_bind
    cases h
    exact Batches.perm_sortByKey _ _

namespace Auction

section
variable [Crypto] [Recovery]

def isUsed (usedAddresses : Finset Address) (tx : BundleTransaction) : Checked Bool := do
  match ← tx.sender with
  | .ok sender => return decide (sender ∈ usedAddresses)
  | .error _ => return false

def hasConflict (bundle : Bundle) (usedAddresses : Finset Address) : Checked Bool :=
  bundle.transactions.anyM (isUsed usedAddresses)

def addSender (tx : BundleTransaction) : Method Selection MevError Unit := do
  let sender ← Method.result (← tx.sender)
  Method.update fun s => { s with usedAddresses := insert sender s.usedAddresses }

def updateUsedAddresses (bundle : Bundle) : Method Selection MevError Unit :=
  bundle.transactions.forM addSender

def take (self : Auction) (bundle : Bundle) (bundleGas : UInt64) (bundleValue : U256) :
    Method Selection MevError Bool := do
  updateUsedAddresses bundle
  Method.update fun s => { s with selected := s.selected ++ [bundle] }
  let totalGas ← addU64 (← Method.read (·.totalGas)) bundleGas
  let totalValue ← U256.add (← Method.read (·.totalValue)) bundleValue
  Method.update fun s => { s with totalGas, totalValue }
  Method.read fun s => decide (s.selected.length ≥ self.config.maxBundlesPerBlock)

def exclude (bundle : Bundle) (reason : ExclusionReason) : Method Selection MevError Bool := do
  Method.update fun s => { s with excluded := s.excluded ++ [(bundle, reason)] }
  return false

def consider (self : Auction) (gasLimit : UInt64) (bundle : Bundle) :
    Method Selection MevError Bool := do
  let bundleGas ← bundle.totalGas
  let gas ← addU64 (← Method.read (·.totalGas)) bundleGas
  if gas > gasLimit then exclude bundle .gasLimit
  else if ← hasConflict bundle (← Method.read (·.usedAddresses)) then exclude bundle .conflict
  else
    let bundleValue ← bundle.scoringValue estimatedBaseFee
    if bundleValue < self.config.minBidIncrement then exclude bundle .insufficientValue
    else self.take bundle bundleGas bundleValue

/-- The loop of `run`; `late turn` if the deadline has passed when the turn begins. -/
def select (self : Auction) (late : Nat → Bool) (gasLimit : UInt64) :
    Nat → List Bundle → Method Selection MevError Unit
  | _, [] => pure ()
  | turn, bundle :: bundles =>
    if late turn then pure ()
    else do
      let last ← self.consider gasLimit bundle
      if last then pure () else self.select late gasLimit (turn + 1) bundles

def run (self : Auction) (late : Nat → Bool) (bundles : List Bundle) (gasLimit : UInt64) :
    Checked (Except MevError AuctionResult) := do
  let (validBundles, invalid) := bundles.partition fun bundle => bundle.validate.isOk
  let validBundles ← sortByValue validBundles
  match self.select late gasLimit 0 validBundles { excluded := invalid.map (·, .invalid) } with
  | .ok () s => return .ok ⟨s.selected, s.totalValue, s.totalGas, s.excluded⟩
  | .err e _ => return .error e
  | .panic p => .error p

variable {m : Auction} {gasLimit : UInt64}

theorem notMem_of_hasConflict {txs : List BundleTransaction}
    (h : txs.anyM (isUsed used) = .ok false) :
    ∀ tx ∈ txs, ∀ addr, tx.sender = .ok (.ok addr) → addr ∉ used := by
  induction txs with
  | nil => exact forall_mem_nil _
  | cons tx txs ih =>
    obtain ⟨used, hused, h⟩ := h.of_bind
    cases used with
    | true => cases h
    | false =>
      refine forall_mem_cons.mpr ⟨fun addr hsen hmem => ?_, ih h⟩
      rw [isUsed, hsen] at hused
      cases (Except.ok.inj hused).symm.trans (decide_eq_true hmem)

theorem addSender_eq_ok (h : addSender tx s = .ok () s') : ∃ sender, tx.sender = .ok (.ok sender) ∧
      s' = { s with usedAddresses := insert sender s.usedAddresses } := by
  obtain ⟨sender, hsen, h⟩ := bind_checked_eq_ok.mp h
  obtain ⟨addr, rfl, h⟩ := bind_result_eq_ok.mp h
  exact ⟨addr, hsen, update_eq_ok.mp h⟩

theorem addSenders_eq_ok {txs : List BundleTransaction} (h : txs.forM addSender s = .ok () s') :
    ∃ used, s' = { s with usedAddresses := used } ∧ s.usedAddresses ⊆ used ∧
      ∀ tx ∈ txs, ∃ addr ∈ used, tx.sender = .ok (.ok addr) := by
  induction txs generalizing s with
  | nil =>
    cases h
    exact ⟨_, rfl, Finset.Subset.refl _, forall_mem_nil _⟩
  | cons tx txs ih =>
    obtain ⟨_, t, hadd, h⟩ := bind_eq_ok.mp h
    obtain ⟨sender, hsen, rfl⟩ := addSender_eq_ok hadd
    obtain ⟨used, hs', hsub, hused⟩ := ih h
    refine ⟨used, hs', (Finset.subset_insert _ _).trans hsub, forall_mem_cons.mpr ⟨?_, hused⟩⟩
    exact ⟨sender, hsub (Finset.mem_insert_self _ _), hsen⟩

structure Takes (auction : Auction) (gasLimit : UInt64) (bundle : Bundle) (s s' : Selection) :
    Prop where
  gas : ∃ gas, bundle.totalGas = .ok gas ∧ s'.totalGas.toNat = s.totalGas.toNat + gas.toNat
  gas_le : s'.totalGas ≤ gasLimit
  value : ∃ value, bundle.scoringValue estimatedBaseFee = .ok value ∧
    auction.config.minBidIncrement ≤ value ∧
    s'.totalValue.toNat = s.totalValue.toNat + value.toNat
  selected : s'.selected = s.selected ++ [bundle]
  unused : ∀ address, bundle.Sends address → address ∉ s.usedAddresses
  used : ∀ address, address ∈ s.usedAddresses ∨ bundle.Sends address → address ∈ s'.usedAddresses

theorem take_eq_ok (h : m.take bundle bundleGas bundleValue s = .ok last s') :
    ∃ used, s.usedAddresses ⊆ used ∧
      (∀ tx ∈ bundle.transactions, ∃ addr ∈ used, tx.sender = .ok (.ok addr)) ∧
      ∃ totalGas totalValue, addU64 s.totalGas bundleGas = .ok totalGas ∧
        s.totalValue.add bundleValue = .ok totalValue ∧
        s' = { s with selected := s.selected ++ [bundle], totalGas, totalValue,
                      usedAddresses := used } ∧
        last = decide (s'.selected.length ≥ m.config.maxBundlesPerBlock) := by
  obtain ⟨_, t, hsen, h⟩ := bind_eq_ok.mp h
  obtain ⟨used, rfl, hsub, hused⟩ := addSenders_eq_ok hsen
  refine ⟨used, hsub, hused, ?_⟩
  obtain ⟨totalGas, hgas, h⟩ := bind_checked_eq_ok.mp h
  rw [bind_read] at h
  obtain ⟨totalValue, hval, h⟩ := bind_checked_eq_ok.mp h
  obtain ⟨rfl, rfl⟩ := read_eq_ok.mp h
  exact ⟨totalGas, totalValue, hgas, hval, rfl, rfl⟩

theorem consider_cases (h : m.consider gasLimit bundle s = .ok last s') :
    (last = false ∧ ∃ excluded, s' = { s with excluded }) ∨
      (last = decide (s'.selected.length ≥ m.config.maxBundlesPerBlock) ∧
        Takes m gasLimit bundle s s') := by
  have hexc {reason : ExclusionReason} (h : exclude bundle reason s = .ok last s') :
      last = false ∧ ∃ excluded, s' = { s with excluded } := by
    cases h
    exact ⟨rfl, _, rfl⟩
  obtain ⟨bundleGas, hgas, h⟩ := bind_checked_eq_ok.mp h
  obtain ⟨gas, hsum, h⟩ := bind_checked_eq_ok.mp h
  split_ifs at h with hlim
  · exact .inl (hexc h)
  obtain ⟨conflict, hcfl, h⟩ := bind_checked_eq_ok.mp h
  cases conflict with
  | true => exact .inl (hexc h)
  | false =>
    obtain ⟨bundleValue, hval, h⟩ := bind_checked_eq_ok.mp h
    split_ifs at h with hmin
    · exact .inl (hexc h)
    obtain ⟨used, hsub, hused, totalGas, totalValue, hgas', hval', rfl, hlast⟩ := take_eq_ok h
    obtain rfl := Except.ok.inj (hsum.symm.trans hgas')
    refine .inr ⟨hlast, ⟨bundleGas, hgas, addU64_eq_ok.mp hgas'⟩, UInt64.not_lt.mp hlim,
      ⟨bundleValue, hval, BitVec.not_lt.mp hmin, U256.add_eq_ok.mp hval'⟩, rfl, ?_, ?_⟩
    · rintro addr ⟨tx, htx, hsen⟩
      exact notMem_of_hasConflict hcfl tx htx addr hsen
    · rintro addr (hmem | ⟨tx, htx, hsen⟩)
      · exact hsub hmem
      · obtain ⟨addr', hmem, hsen'⟩ := hused tx htx
        cases hsen.symm.trans hsen'
        exact hmem

structure Feasible (auction : Auction) (gasLimit : UInt64) (winners : List Bundle)
    (gasUsed : UInt64) (totalValue : U256) : Prop where
  disjoint : winners.Pairwise fun b c => ∀ address, b.Sends address → ¬c.Sends address
  gas : ∃ gases, winners.mapM Bundle.totalGas = .ok gases ∧
    gasUsed.toNat = (gases.map UInt64.toNat).sum
  gas_le : gasUsed ≤ gasLimit
  value : ∃ values, winners.mapM (·.scoringValue estimatedBaseFee) = .ok values ∧
    totalValue.toNat = (values.map BitVec.toNat).sum ∧
    ∀ value ∈ values, auction.config.minBidIncrement ≤ value

structure Inv (auction : Auction) (gasLimit : UInt64) (s : Selection) : Prop where
  feasible : Feasible auction gasLimit s.selected s.totalGas s.totalValue
  used : ∀ b ∈ s.selected, ∀ address, b.Sends address → address ∈ s.usedAddresses

theorem inv_start : Inv m gasLimit { excluded } where
  feasible := ⟨.nil, ⟨[], rfl, rfl⟩, UInt64.zero_le, ⟨[], rfl, rfl, forall_mem_nil _⟩⟩
  used := forall_mem_nil _

theorem Inv.takes (H : Inv m gasLimit s) (h : Takes m gasLimit bundle s s') :
    Inv m gasLimit s' := by
  obtain ⟨gases, hgase, hgasU⟩ := H.feasible.gas
  obtain ⟨gas, hgas, hgasU'⟩ := h.gas
  obtain ⟨values, hval, htot, hmin⟩ := H.feasible.value
  obtain ⟨value, hvalue, hmin', htot'⟩ := h.value
  refine ⟨⟨?_, ⟨gases ++ [gas], ?_, ?_⟩, h.gas_le, values ++ [value], ?_, ?_, ?_⟩, ?_⟩
  · rw [h.selected]
    refine pairwise_append.mpr ⟨H.feasible.disjoint, pairwise_singleton _ _, ?_⟩
    intro b hb c hc addr hsen
    rw [mem_singleton.mp hc]
    exact fun hsen' => h.unused addr hsen' (H.used b hb addr hsen)
  · rw [h.selected]
    exact Checked.mapM_concat hgase hgas
  · rw [hgasU', hgasU]
    simp
  · rw [h.selected]
    exact Checked.mapM_concat hval hvalue
  · rw [htot', htot]
    simp
  · exact forall_mem_append.mpr ⟨hmin, forall_mem_singleton.mpr hmin'⟩
  · rw [h.selected]
    refine forall_mem_append.mpr ⟨fun b hb addr hsen => ?_,
      forall_mem_singleton.mpr fun addr hsen => h.used addr (.inr hsen)⟩
    exact h.used addr (.inl (H.used b hb addr hsen))

theorem select_eq_ok (h : m.select late gasLimit turn bundles s = .ok () s')
    (H : Inv m gasLimit s) (hroom : s.selected.length < m.config.maxBundlesPerBlock) :
    Inv m gasLimit s' ∧ s'.selected.length ≤ m.config.maxBundlesPerBlock ∧
      ∃ chosen, s'.selected = s.selected ++ chosen ∧ chosen.Sublist bundles := by
  induction bundles generalizing turn s with
  | nil =>
    cases h
    exact ⟨H, hroom.le, [], (append_nil _).symm, .refl _⟩
  | cons bundle bundles ih =>
    rw [select] at h
    split_ifs at h
    · cases h
      exact ⟨H, hroom.le, [], (append_nil _).symm, nil_sublist _⟩
    obtain ⟨last, t, hturn, h⟩ := bind_eq_ok.mp h
    rcases consider_cases hturn with ⟨rfl, excluded, rfl⟩ | ⟨rfl, htak⟩
    · obtain ⟨H', hlen, chosen, hcho, hsub⟩ := ih h ⟨H.feasible, H.used⟩ hroom
      exact ⟨H', hlen, chosen, hcho, hsub.cons _⟩
    · have hsel := htak.selected
      have hlen := congrArg length hsel
      rw [length_append, length_singleton] at hlen
      split_ifs at h with hfull
      · cases h
        refine ⟨H.takes htak, by omega, [bundle], hsel, ?_⟩
        exact singleton_sublist.mpr mem_cons_self
      · obtain ⟨H', hle, chosen, hcho, hsub⟩ := ih h (H.takes htak)
          (Nat.lt_of_not_le (of_decide_eq_false (Bool.eq_false_iff.mpr hfull)))
        refine ⟨H', hle, bundle :: chosen, ?_, hsub.cons_cons _⟩
        rw [hcho, hsel, append_assoc, singleton_append]

/-- The winners are valid bundles of the input that may be taken together, and the totals are
theirs, wherever the deadline strikes. -/
theorem run_feasible {res : AuctionResult} (hmax : 1 ≤ m.config.maxBundlesPerBlock)
    (h : m.run late bundles gasLimit = .ok (.ok res)) :
    res.winningBundles.Subperm bundles ∧ (∀ b ∈ res.winningBundles, b.Valid) ∧
      res.winningBundles.length ≤ m.config.maxBundlesPerBlock ∧
      Feasible m gasLimit res.winningBundles res.gasUsed res.totalValue := by
  rw [run, partition_eq_filter_filter] at h
  obtain ⟨sorted, hsrt, h⟩ := h.of_bind
  split at h
  · next s hsel =>
    cases h
    obtain ⟨H, hlen, chosen, hcho, hsub⟩ := select_eq_ok hsel inv_start hmax
    obtain rfl : s.selected = chosen := hcho
    have hvld := hsub.subperm.trans (perm_sortByValue hsrt).subperm
    refine ⟨hvld.trans filter_sublist.subperm, fun b hb => ?_, hlen, H.feasible⟩
    have hok := (mem_filter.mp (hvld.subset hb)).2
    apply Bundle.validate_eq_ok.mp
    cases hval : b.validate with
    | ok u => rfl
    | error e =>
      rw [hval] at hok
      cases hok
  · cases h
  · cases h

end

namespace Sample

def transfer (sender : U256) (price : U256) : Bundle where
  transactions := [{
    transaction := .legacy
      { nonce := 0, gasPrice := price * 1000000000, gasLimit := 21000, toAddress := none,
        value := 0, data := [], v := 27, r := 0, s := 0 }
    signer := some (addressFromU256 sender) }]
  blockNumber := 100
  minBlock := 100
  maxBlock := 101

end Sample

open Sample Sized Unrecovered

/-- The second transfer of one sender is left out, and the best bundle comes first. -/
theorem run_feasible_sample :
    ∃ res, ({} : Auction).run (fun turn => decide (turn > 2))
        [transfer 1 40, transfer 2 50, transfer 1 35] 100000 = .ok (.ok res) ∧
      res.winningBundles = [transfer 2 50, transfer 1 40] ∧
      Feasible {} 100000 res.winningBundles res.gasUsed res.totalValue := by
  have hrun : ({} : Auction).run (fun turn => decide (turn > 2))
      [transfer 1 40, transfer 2 50, transfer 1 35] 100000 =
        .ok (.ok ⟨[transfer 2 50, transfer 1 40], 630000000000000, 42000,
          [(transfer 1 35, .conflict)]⟩) := by
    decide +kernel
  exact ⟨_, hrun, rfl, (run_feasible (by decide) hrun).2.2.2⟩

end Auction

end EthereumRust.Mev
