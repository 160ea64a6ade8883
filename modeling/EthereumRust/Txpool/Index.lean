import EthereumRust.Txpool.Pool
import EthereumRust.Lib.Lane

/-!
# The indexes of the pool

What the four structures of a pool hold: the transaction of each hash, the price of each hash, and a
lane of pending and queued transactions for each sender. Only two things happen to them. A
transaction is dropped, or one arrives that is not there.
-/

namespace EthereumRust.Txpool

open List Finmap Function

def PooledTransaction.number (self : PooledTransaction) : Nat := self.tx.nonce.toNat

structure Index where
  all : HashMap H256 PooledTransaction
  prices : HashMap H256 TxPriority
  lane : Address → Lane PooledTransaction

namespace Index

def empty : Index := ⟨∅, ∅, fun _ => ⟨[], []⟩⟩

def drop (self : Index) (hash : H256) : Index where
  all := self.all.erase hash
  prices := self.prices.erase hash
  lane address := (self.lane address).retain (·.hash != hash)

def put (self : Index) (tx : PooledTransaction) (lane : Lane PooledTransaction) : Index where
  all := self.all.insert tx.hash tx
  prices := self.prices.insert tx.hash ⟨tx.gasPrice⟩
  lane := Function.update self.lane tx.fromAddress lane

structure Consistent (index : Index) : Prop where
  priced : ∀ hash, hash ∈ index.prices ↔ hash ∈ index.all
  keyed : ∀ hash tx, index.all.lookup hash = some tx →
    tx.hash = hash ∧ tx ∈ (index.lane tx.fromAddress).items
  listed : ∀ address, ∀ tx ∈ (index.lane address).items,
    tx.fromAddress = address ∧ index.all.lookup tx.hash = some tx
  once : ∀ address, ((index.lane address).items.map (·.hash)).Nodup

theorem consistent_empty : empty.Consistent where
  priced hash := by
    change hash ∈ (∅ : HashMap H256 TxPriority) ↔ hash ∈ (∅ : HashMap H256 PooledTransaction)
    simp only [notMem_empty]
  keyed hash tx h := by
    cases h
  listed addr tx h := by cases h
  once addr := .nil

variable {index : Index} {hash : H256} {addr : Address} {lane : Lane PooledTransaction}

namespace Consistent

theorem retain_of_notMem (H : index.Consistent) (h : hash ∉ index.all) :
    (index.lane addr).retain (·.hash != hash) = index.lane addr := by
  refine Lane.retain_eq_self fun tx htx => ?_
  rw [bne_iff_ne]
  rintro rfl
  exact h (mem_of_lookup_eq_some (H.listed addr tx htx).2)

theorem drop_of_notMem (H : index.Consistent) (h : hash ∉ index.all) : index.drop hash = index := by
  have hpri : hash ∉ index.prices := mt (H.priced hash).mp h
  have hlane : (fun addr => (index.lane addr).retain (·.hash != hash)) = index.lane :=
    funext fun _ => H.retain_of_notMem h
  rw [drop, hlane, HashMap.erase_of_notMem h, HashMap.erase_of_notMem hpri]

theorem drop (H : index.Consistent) (hash : H256) : (index.drop hash).Consistent where
  priced hash' := by
    change hash' ∈ index.prices.erase hash ↔ hash' ∈ index.all.erase hash
    rw [mem_erase, mem_erase, H.priced]
  keyed hash' tx h := by
    have hne : hash' ≠ hash := by
      rintro rfl
      rw [Index.drop, lookup_erase] at h
      cases h
    rw [Index.drop, lookup_erase_ne hne] at h
    obtain ⟨rfl, hmem⟩ := H.keyed hash' tx h
    refine ⟨rfl, ?_⟩
    rw [Index.drop, Lane.items_retain, mem_filter, bne_iff_ne]
    exact ⟨hmem, hne⟩
  listed addr tx h := by
    rw [Index.drop, Lane.items_retain, mem_filter, bne_iff_ne] at h
    obtain ⟨hfrom, hget⟩ := H.listed addr tx h.1
    refine ⟨hfrom, ?_⟩
    rw [Index.drop, Finmap.lookup_erase_ne h.2]
    exact hget
  once addr := by
    rw [Index.drop, Lane.items_retain]
    exact (H.once addr).sublist (filter_sublist.map _)

theorem put (H : index.Consistent) (h : tx.hash ∉ index.all)
    (hlane : lane.items.Perm (tx :: (index.lane tx.fromAddress).items)) :
    (index.put tx lane).Consistent where
  priced hash := by
    change hash ∈ index.prices.insert tx.hash _ ↔ hash ∈ index.all.insert tx.hash tx
    rw [mem_insert, mem_insert, H.priced]
  keyed hash tx' hget := by
    change (index.all.insert tx.hash tx).lookup hash = some tx' at hget
    change tx'.hash = hash ∧ tx' ∈ (update index.lane tx.fromAddress lane tx'.fromAddress).items
    by_cases heq : hash = tx.hash
    · subst heq
      rw [lookup_insert] at hget
      obtain rfl := Option.some.inj hget
      rw [update_self]
      exact ⟨rfl, hlane.mem_iff.mpr mem_cons_self⟩
    · rw [lookup_insert_of_ne _ heq] at hget
      obtain ⟨hhash, hmem⟩ := H.keyed hash tx' hget
      refine ⟨hhash, ?_⟩
      by_cases hfrom : tx'.fromAddress = tx.fromAddress
      · rw [hfrom, update_self]
        exact hlane.mem_iff.mpr (mem_cons_of_mem _ (hfrom ▸ hmem))
      · rw [update_of_ne hfrom]
        exact hmem
  listed addr tx' hmem := by
    change tx' ∈ (update index.lane tx.fromAddress lane addr).items at hmem
    have hold : tx' ∈ (index.lane addr).items →
        tx'.fromAddress = addr ∧ (index.all.insert tx.hash tx).lookup tx'.hash = some tx' := by
      intro hmem
      obtain ⟨hfrom, hget⟩ := H.listed addr tx' hmem
      have hne : tx'.hash ≠ tx.hash := by
        intro heq
        exact h (heq ▸ mem_of_lookup_eq_some hget)
      exact ⟨hfrom, (lookup_insert_of_ne _ hne).trans hget⟩
    by_cases hfrom : addr = tx.fromAddress
    · subst hfrom
      rw [update_self] at hmem
      rcases mem_cons.mp (hlane.mem_iff.mp hmem) with rfl | hmem
      · exact ⟨rfl, lookup_insert _⟩
      · exact hold hmem
    · rw [update_of_ne hfrom] at hmem
      exact hold hmem
  once addr := by
    change ((update index.lane tx.fromAddress lane addr).items.map _).Nodup
    by_cases hfrom : addr = tx.fromAddress
    · subst hfrom
      rw [update_self, (hlane.map _).nodup_iff, map_cons, nodup_cons]
      refine ⟨fun hmem => ?_, H.once _⟩
      obtain ⟨tx', htx', heq⟩ := mem_map.mp hmem
      exact h (heq ▸ mem_of_lookup_eq_some (H.listed _ tx' htx').2)
    · rw [update_of_ne hfrom]
      exact H.once addr

end Consistent

end Index

end EthereumRust.Txpool
