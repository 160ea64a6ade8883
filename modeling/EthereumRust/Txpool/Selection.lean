import EthereumRust.Lib.Batches
import EthereumRust.Lib.Prefixes
import EthereumRust.Txpool.Eviction

/-!
# Transactions for a block

`get_transactions_for_block` sorts the pending transactions of all senders by price and takes them
until one does not fit. The sort is stable, so among transactions of one price the order of the
pending lists is kept.
-/

namespace EthereumRust.Txpool

open Rust Method EthereumRust.Core List Batches

namespace TransactionPool

def fillBlock (gasLimit : U256) : U256 → List PooledTransaction → Checked (List PooledTransaction)
  | _, [] => .ok []
  | totalGas, tx :: txs => do
    let gas := tx.tx.gasLimit
    if (← U256.add totalGas gas) ≤ gasLimit then
      let totalGas ← U256.add totalGas gas
      return tx :: (← fillBlock gasLimit totalGas txs)
    else return []

def priceKey (tx : PooledTransaction) : Natᵒᵈ := OrderDual.toDual tx.gasPrice.toNat

def pendingTransactions (self : TransactionPool Q) (order : List Address) :
    List PooledTransaction :=
  order.flatMap fun address => (self.pending.lookup address).getD []

def getTransactionsForBlock (self : TransactionPool Q) (order : List Address) (gasLimit : U256) :
    Checked (List PooledTransaction) :=
  fillBlock gasLimit 0 (Batches.sortByKey priceKey (self.pendingTransactions order))

theorem fillBlock_spec
    (hle : totalGas.toNat ≤ limit.toNat) (h : fillBlock limit totalGas txs = .ok block) :
    block <+: txs ∧ totalGas.toNat + (block.map (·.tx.gasLimit.toNat)).sum ≤ limit.toNat := by
  induction txs generalizing totalGas block with
  | nil =>
    cases h
    exact ⟨ nil_prefix, hle⟩
  | cons tx txs ih =>
    obtain ⟨sum, hsum, h⟩ := h.of_bind
    split at h
    · rename_i hfits
      obtain ⟨total, htot, h⟩ := h.of_bind
      obtain ⟨rest, hrest, h⟩ := h.of_bind
      cases h
      rw [hsum] at htot
      cases htot
      obtain ⟨hini, hgas⟩ := ih hfits hrest
      rw [U256.add_eq_ok.mp hsum] at hgas
      refine ⟨(prefix_cons_inj tx).mpr hini, ?_⟩
      rw [map_cons, sum_cons]
      omega
    · cases h
      exact ⟨ nil_prefix, hle⟩

/-- The sort puts `tx` before `other`: it pays more, or the same and comes first in the lists. -/
def Before (txs : List PooledTransaction) (tx other : PooledTransaction) : Prop :=
  other.gasPrice < tx.gasPrice ∨ tx.gasPrice = other.gasPrice ∧ [tx, other].Sublist txs

instance (txs : List PooledTransaction) (tx other : PooledTransaction) :
    Decidable (Before txs tx other) :=
  inferInstanceAs (Decidable (_ ∨ _))

/-- The gas of a transaction and of all that are sorted before it. -/
def gasUpTo (txs : List PooledTransaction) (tx : PooledTransaction) : Nat :=
  ((txs.filter (Before txs · tx)).map (·.tx.gasLimit.toNat)).sum + tx.tx.gasLimit.toNat

theorem mem_fillBlock_iff (hnd : (front ++ tx :: back).Nodup)
    (h : fillBlock limit totalGas (front ++ tx :: back) = .ok block) :
    tx ∈ block ↔ totalGas.toNat + ((front.map (·.tx.gasLimit.toNat)).sum + tx.tx.gasLimit.toNat) ≤
      limit.toNat := by
  induction front generalizing totalGas block with
  | nil =>
    obtain ⟨sum, hsum, h⟩ := h.of_bind
    rw [map_nil, sum_nil, zero_add, ← U256.add_eq_ok.mp hsum]
    split at h
    · obtain ⟨total, -, h⟩ := h.of_bind
      obtain ⟨rest, -, h⟩ := h.of_bind
      cases h
      exact iff_of_true mem_cons_self ‹_›
    · cases h
      exact iff_of_false not_mem_nil ‹_›
  | cons first front ih =>
    obtain ⟨sum, hsum, h⟩ := h.of_bind
    obtain ⟨hfst, hnd⟩ := nodup_cons.mp hnd
    have hne : tx ≠ first := by
      rintro rfl
      exact hfst (mem_append_right _ mem_cons_self)
    rw [map_cons, sum_cons, add_assoc, ← add_assoc totalGas.toNat, ← U256.add_eq_ok.mp hsum]
    split at h
    · obtain ⟨total, htot, h⟩ := h.of_bind
      obtain ⟨rest, hrest, h⟩ := h.of_bind
      cases h
      rw [hsum] at htot
      cases htot
      rw [mem_cons, or_iff_right hne, ih hnd hrest]
    · cases h
      rename_i hover
      exact iff_of_false not_mem_nil fun hle => hover (le_trans (Nat.le_add_right _ _) hle)

theorem pairwise_before (txs : List PooledTransaction) :
    (sortByKey priceKey txs).Pairwise (Before txs) := by
  have hpai : txs.Pairwise fun tx other => [tx, other].Sublist txs :=
    pairwise_iff_forall_sublist.mpr id
  refine (pairwise_sortByKey hpai).imp fun h => h.imp id fun h => ⟨?_, h.2⟩
  exact BitVec.eq_of_toNat_eq h.1

theorem not_before_of_before (hnd : txs.Nodup) (h : Before txs tx other) :
    ¬Before txs other tx := by
  rintro (hlt | ⟨heq, hpair⟩) <;> rcases h with hlt' | ⟨heq', hpair'⟩
  · exact BitVec.lt_asymm hlt hlt'
  · exact BitVec.lt_irrefl _ (heq' ▸ hlt)
  · exact BitVec.lt_irrefl _ (heq ▸ hlt')
  · exact Prefixes.not_pair_sublist_swap hnd hpair hpair'

theorem mem_block_iff (hnd : txs.Nodup) (h : fillBlock limit 0 (sortByKey priceKey txs) = .ok block)
    (htx : tx ∈ txs) : tx ∈ block ↔ gasUpTo txs tx ≤ limit.toNat := by
  have hperm := perm_sortByKey priceKey txs
  have hpai := pairwise_before txs
  have hsrt := hperm.nodup_iff.mpr hnd
  have hfil := hperm.filter (Before txs · tx)
  obtain ⟨front, back, heq⟩ := append_of_mem (hperm.mem_iff.mpr htx)
  rw [heq] at h hpai hsrt hfil
  obtain ⟨-, hback, hfro⟩ := pairwise_append.mp hpai
  have hbef : front.filter (Before txs · tx) = front :=
    filter_eq_self.mpr fun other hoth => decide_eq_true (hfro other hoth tx mem_cons_self)
  have hbeh : (tx :: back).filter (Before txs · tx) = [] := by
    refine filter_eq_nil_iff.mpr fun other hoth hfst => ?_
    have hfst := of_decide_eq_true hfst
    rcases mem_cons.mp hoth with rfl | hoth
    · exact not_before_of_before hnd hfst hfst
    · exact not_before_of_before hnd hfst ((pairwise_cons.mp hback).1 other hoth)
  rw [filter_append, hbef, hbeh, append_nil] at hfil
  rw [mem_fillBlock_iff hsrt h, gasUpTo, (hfil.map _).sum_eq,
    show (0 : U256).toNat = 0 from rfl, zero_add]

theorem pending_sublist {pool : TransactionPool Q}
    (hord : ∀ addr, addr ∈ order ↔ addr ∈ pool.pending) :
    (pool.lane addr).pending.Sublist (pool.pendingTransactions order) := by
  by_cases hmem : addr ∈ pool.pending
  · exact sublist_flatten_of_mem (mem_map_of_mem ((hord addr).mpr hmem))
  · rw [lane, Finmap.lookup_eq_none.mpr hmem]
    exact nil_sublist _

section
variable [PriorityQueue Q H256 TxPriority] {pool : TransactionPool Q} {order : List Address}

section
variable (H : pool.index.Consistent)
include H

theorem fromAddress_of_pending (h : tx ∈ (pool.lane addr).pending) : tx.fromAddress = addr :=
  (H.listed addr tx (mem_append_left _ h)).1

theorem nodup_pending (addr : Address) : (pool.lane addr).pending.Nodup :=
  (H.once addr).of_map.sublist (sublist_append_left _ _)

theorem nodup_pendingTransactions (hnd : order.Nodup) : (pool.pendingTransactions order).Nodup := by
  refine nodup_flatMap.mpr ⟨fun addr _ => nodup_pending H addr, ?_⟩
  refine hnd.imp fun hne => disjoint_left.mpr ?_
  intro tx h h'
  exact hne ((fromAddress_of_pending H h).symm.trans (fromAddress_of_pending H h'))

theorem mem_pendingTransactions (hord : ∀ addr, addr ∈ order ↔ addr ∈ pool.pending) :
    tx ∈ pool.pendingTransactions order ↔ tx ∈ (pool.lane tx.fromAddress).pending := by
  constructor
  · intro h
    obtain ⟨addr, -, hmem⟩ := mem_flatMap.mp h
    have hpnd : tx ∈ (pool.lane addr).pending := hmem
    rwa [fromAddress_of_pending H hpnd]
  · intro h
    exact (pending_sublist hord).subset h

theorem filter_isPrefix_iff (hnd : order.Nodup) (hord : ∀ addr, addr ∈ order ↔ addr ∈ pool.pending)
    {block : List PooledTransaction}
    (hblk : block <+: sortByKey priceKey (pool.pendingTransactions order)) :
    block.filter (·.fromAddress = addr) <+: (pool.lane addr).pending ↔
      ∀ tx tx', [tx, tx'].Sublist (pool.lane addr).pending → tx' ∈ block →
        tx'.gasPrice ≤ tx.gasPrice := by
  have hperm := perm_sortByKey priceKey (pool.pendingTransactions order)
  have hsrt := hperm.nodup_iff.mpr (nodup_pendingTransactions H hnd)
  have hsub : block.filter (·.fromAddress = addr) ⊆ (pool.lane addr).pending := by
    intro tx htx
    obtain ⟨hmem, hfrom⟩ := mem_filter.mp htx
    have hpnd := hperm.mem_iff.mp (hblk.subset hmem)
    rw [mem_pendingTransactions H hord, of_decide_eq_true hfrom] at hpnd
    exact hpnd
  have hfil := (hsrt.sublist hblk.sublist).filter (·.fromAddress = addr)
  rw [Prefixes.isPrefix_iff_pairs (nodup_pending H addr) hfil hsub]
  refine forall_congr' fun tx => forall_congr' fun tx' => forall_congr' fun hpair => ?_
  obtain ⟨htx, htx'⟩ := Prefixes.mem_of_pair_sublist hpair
  have hfrom := fromAddress_of_pending H htx
  have hfrom' := fromAddress_of_pending H htx'
  rw [mem_filter, and_iff_left (decide_eq_true hfrom')]
  refine forall_congr' fun hmem => ?_
  constructor
  · intro h
    exact le_of_pair_sortByKey ((h.trans filter_sublist).trans hblk.sublist)
  · intro hle
    -- the stable sort keeps the order of the two, and so does its initial part
    have hkept : [tx, tx'].Sublist
        (sortByKey priceKey (pool.pendingTransactions order)) :=
      pair_sortByKey hle (hpair.trans (pending_sublist hord))
    have hpart := Prefixes.pair_sublist_of_isPrefix hsrt hblk hkept hmem
    simpa [hfrom, hfrom'] using hpart.filter (·.fromAddress = addr)

end

variable [Crypto] [Recovery] {cfg : TxPoolConfig}

/-- The transactions for a block fit into the gas limit. They are executable exactly when a pending
transaction for which there is gas left never pays more than one before it in its pending list. -/
theorem block_executable_iff (h : Reaches (fun _ _ => True) cfg pool) (hnd : order.Nodup)
    (hord : ∀ addr, addr ∈ order ↔ addr ∈ pool.pending) {limit : U256}
    {block : List PooledTransaction} (hblk : pool.getTransactionsForBlock order limit = .ok block) :
    (block.map (·.tx.gasLimit.toNat)).sum ≤ limit.toNat ∧
      ((∀ addr, block.filter (·.fromAddress = addr) <+: (pool.lane addr).pending) ↔
        ∀ addr tx tx', [tx, tx'].Sublist (pool.lane addr).pending →
          gasUpTo (pool.pendingTransactions order) tx' ≤ limit.toNat →
            tx'.gasPrice ≤ tx.gasPrice) := by
  have H := h.priced.1.consistent
  obtain ⟨hini, hgas⟩ := fillBlock_spec (Nat.zero_le _) hblk
  refine ⟨le_trans (Nat.le_add_left _ _) hgas, forall_congr' fun addr => ?_⟩
  rw [filter_isPrefix_iff H hnd hord hini]
  refine forall₂_congr fun tx tx' => forall_congr' fun hpair => ?_
  have htx' := (pending_sublist hord).subset (Prefixes.mem_of_pair_sublist hpair).2
  rw [mem_block_iff (nodup_pendingTransactions H hnd) hblk htx']

end

section
open Sized Unrecovered

def selection (self : ListPool) : Finset Address × List Nat × Option (List Nat) :=
  (self.pending.keys, (self.lane Address.zero).pending.map (·.number),
    match self.getTransactionsForBlock [Address.zero] 30000000 with
    | .ok block => some ((block.filter (·.fromAddress = Address.zero)).map (·.number))
    | .error _ => none)

theorem of_selection_eq {pool : ListPool} {pend sel : List Nat}
    (h : pool.selection = ({Address.zero}, pend, some sel)) :
    (∀ addr, addr ∈ [Address.zero] ↔ addr ∈ pool.pending) ∧
      (pool.lane Address.zero).pending.map (·.number) = pend ∧
      ∃ block, pool.getTransactionsForBlock [Address.zero] 30000000 = .ok block ∧
        (block.filter (·.fromAddress = Address.zero)).map (·.number) = sel := by
  obtain ⟨hkeys, h⟩ := Prod.mk.inj h
  obtain ⟨hpnd, hsel⟩ := Prod.mk.inj h
  refine ⟨fun addr => ?_, hpnd, ?_⟩
  · rw [← Finmap.mem_keys, hkeys, mem_singleton, Finset.mem_singleton]
  · split at hsel
    · rename_i block hblk
      exact ⟨block, hblk, Option.some.inj hsel⟩
    · cases hsel

/-- The second transaction of a sender pays more, and comes first. -/
theorem block_out_of_order : ∃ (pool : ListPool) (block : List PooledTransaction),
    Reaches (fun _ _ => True) .default pool ∧
      (∀ addr, addr ∈ [Address.zero] ↔ addr ∈ pool.pending) ∧
      pool.getTransactionsForBlock [Address.zero] 30000000 = .ok block ∧
      ¬ block.filter (·.fromAddress = Address.zero) <+: (pool.lane Address.zero).pending := by
  obtain ⟨pool, hrch, hsel⟩ := reaches_of_perform .default selection
    [.add 0 (offer 0 0 1000000000), .add 0 (offer 1 1 2000000000)]
    (b := ({Address.zero}, [0, 1], some [1, 0])) (by decide +kernel)
  obtain ⟨hord, hpnd, block, hblk, hselected⟩ := of_selection_eq hsel
  refine ⟨pool, block, hrch, hord, hblk, fun hini => ?_⟩
  have hnons := hini.map (·.number)
  rw [hpnd, hselected] at hnons
  revert hnons
  decide

theorem block_fits : ∃ (pool : ListPool) (block : List PooledTransaction),
    (pool.lane Address.zero).pending.map (·.number) = [0, 1] ∧
      (block.filter (·.fromAddress = Address.zero)).map (·.number) = [0, 1] ∧
      (block.map (·.tx.gasLimit.toNat)).sum ≤ 30000000 := by
  obtain ⟨pool, hrch, hsel⟩ := reaches_of_perform .default selection
    [.add 0 (offer 0 0 2000000000), .add 0 (offer 1 1 1000000000)]
    (b := ({Address.zero}, [0, 1], some [0, 1])) (by decide +kernel)
  obtain ⟨hord, hpnd, block, hblk, hselected⟩ := of_selection_eq hsel
  have hgas := (block_executable_iff hrch (nodup_singleton _) hord hblk).1
  exact ⟨pool, block, hpnd, hselected, hgas⟩

end

end TransactionPool

end EthereumRust.Txpool
