import EthereumRust.Txpool.Invariants

/-!
# Eviction

A full pool makes room for a transaction by dropping the one that `peek` of the price heap shows.
That is one of highest price, and it is dropped if it is cheaper than the new one. It is dropped
before the nonce of the new transaction is looked at, and not put back if the nonce is too low.
-/

namespace EthereumRust.Txpool

open Rust Method EthereumRust.Core Finmap PriorityQueue

namespace Index

def Priced (index : Index) : Prop :=
  ∀ hash, index.prices.lookup hash = (index.all.lookup hash).map fun tx => ⟨tx.gasPrice⟩

variable {index : Index}

theorem priced_empty : empty.Priced := by
  intro hash
  rfl

theorem Priced.drop (h : index.Priced) (hash : H256) : (index.drop hash).Priced := by
  intro hash'
  change (index.prices.erase hash).lookup hash' = ((index.all.erase hash).lookup hash').map _
  by_cases heq : hash' = hash
  · rw [heq, lookup_erase, lookup_erase]
    rfl
  · rw [lookup_erase_ne heq, lookup_erase_ne heq]
    exact h hash'

theorem Priced.put (h : index.Priced) (tx : PooledTransaction) (lane : Lane PooledTransaction) :
    (index.put tx lane).Priced := by
  intro hash
  change (index.prices.insert tx.hash _).lookup hash =
    ((index.all.insert tx.hash tx).lookup hash).map _
  by_cases heq : hash = tx.hash
  · rw [heq, lookup_insert, lookup_insert]
    rfl
  · rw [lookup_insert_of_ne _ heq, lookup_insert_of_ne _ heq]
    exact h hash

end Index

namespace TransactionPool

theorem promoteQueued_ne_err {m pool : TransactionPool Q} : promoteQueued addr m ≠ .err e pool := by
  have hsat : Sat (promoteQueued addr) m (fun _ _ => True) (fun _ _ => False)
      (fun _ => True) := by
    rw [promoteQueued, sat_bind, sat_read, sat_bind, sat_checked]
    cases (id m).getNextNonce addr with
    | error p => trivial
    | ok nonce =>
      cases (id m).queued.lookup addr with
      | none => trivial
      | some txs =>
        dsimp only
        rw [sat_bind, sat_checked]
        cases promotable nonce txs [] with
        | error p => trivial
        | ok lists =>
          dsimp only
          split <;> trivial
  exact hsat.of_err

section
variable {Q : Type} [PriorityQueue Q H256 TxPriority] {m pool : TransactionPool Q}
  {tx : PooledTransaction}

def cleared (self : TransactionPool Q) (tx : PooledTransaction) : TransactionPool Q :=
  if self.config.maxSize ≤ self.all.keys.card then (self.evictTransaction tx).2 else self

theorem cleared_of_lt (h : m.all.keys.card < m.config.maxSize) : m.cleared tx = m :=
  if_neg (not_le.mpr h)

theorem cleared_of_le (h : m.config.maxSize ≤ m.all.keys.card) :
    m.cleared tx = (m.evictTransaction tx).2 := if_pos h

section
variable (H : m.index.Consistent)
include H

theorem makeRoom_eq :
    makeRoom tx m = if m.HasRoom tx then .ok () (m.cleared tx) else .err .poolFull m := by
  rw [makeRoom, bind_read, id_eq]
  by_cases hfull : m.config.maxSize ≤ m.all.keys.card
  · rw [if_pos hfull, cleared_of_le hfull]
    cases hvic : m.victim tx with
    | none =>
      have hroom : ¬ m.HasRoom tx := by
        rw [HasRoom, hvic]
        simpa using hfull
      rw [evictTransaction_of_none hvic, if_neg hroom]
      rfl
    | some hash =>
      have hroom : m.HasRoom tx := .inr (hvic ▸ rfl)
      have htrue := (evictTransaction_of_some H hvic).1
      rw [if_pos hroom]
      generalize m.evictTransaction tx = res at htrue ⊢
      obtain ⟨evicted, room⟩ := res
      obtain rfl : evicted = true := htrue
      rfl
  · have hlt := not_le.mp hfull
    have hroom : m.HasRoom tx := .inl hlt
    rw [if_neg hfull, if_pos hroom, cleared_of_lt hlt]
    rfl

theorem index_cleared :
    (m.cleared tx).index =
      match m.evicted tx with
      | none => m.index
      | some hash => m.index.drop hash := by
  rw [evicted]
  by_cases hfull : m.config.maxSize ≤ m.all.keys.card
  · rw [if_pos hfull, cleared_of_le hfull]
    cases hvic : m.victim tx with
    | none => rw [evictTransaction_of_none hvic]
    | some hash => exact (evictTransaction_of_some H hvic).2.1
  · rw [if_neg hfull, cleared_of_lt (not_le.mp hfull)]

theorem lane_cleared (addr : Address) :
    (m.cleared tx).lane addr = (m.lane addr).retain fun old => m.evicted tx != some old.hash := by
  rw [lane_of_index (index_cleared H)]
  cases m.evicted tx with
  | none => exact (Lane.retain_true _).symm
  | some hash =>
    refine congrArg (Lane.retain · _) (funext fun old => ?_)
    rw [Bool.eq_iff_iff, bne_iff_ne, bne_iff_ne, ne_eq, ne_eq, Option.some_inj, eq_comm]

theorem getNextNonce_cleared :
    (m.cleared tx).getNextNonce tx.fromAddress = .ok expected ↔
      expected.toNat = ((m.lane tx.fromAddress).retain
        fun old => m.evicted tx != some old.hash).next (·.number) := by
  rw [getNextNonce_eq_ok, lane_cleared H]

theorem mem_of_evicted {hash : H256} (h : m.evicted tx = some hash) : hash ∈ m.all := by
  rw [evicted] at h
  split_ifs at h
  exact (evictTransaction_of_some H h).2.2.2

end

theorem cleared_of_none (h : m.evicted tx = none) : m.cleared tx = m := by
  rw [evicted] at h
  split_ifs at h with hfull
  · rw [cleared_of_le hfull, evictTransaction_of_none h]
  · exact cleared_of_lt (not_le.mp hfull)

theorem consistent_cleared (H : m.index.Consistent) : (m.cleared tx).index.Consistent := by
  rw [index_cleared H]
  cases m.evicted tx with
  | none => exact H
  | some hash => exact H.drop hash

theorem priced_cleared (H : m.index.Consistent) (h : m.index.Priced) :
    (m.cleared tx).index.Priced := by
  rw [index_cleared H]
  cases m.evicted tx with
  | none => exact h
  | some hash => exact h.drop hash

theorem notMem_cleared (H : m.index.Consistent) (h : tx.hash ∉ m.all) :
    tx.hash ∉ (m.cleared tx).all := by
  rw [all_of_index (index_cleared H)]
  cases m.evicted tx with
  | none => exact h
  | some hash => exact fun hmem => h (mem_erase.mp hmem).2

def rejected (self : TransactionPool Q) (tx : PooledTransaction) : TransactionPool Q :=
  { self with
    all := (self.all.insert tx.hash tx).erase tx.hash
    priceHeap := PriorityQueue.remove (PriorityQueue.push self.priceHeap tx.hash ⟨tx.gasPrice⟩)
      tx.hash }

theorem addToPool_eq_err_iff : addToPool tx m = .err e pool ↔
      e = .nonceTooLow ∧ pool = m.rejected tx ∧
        ∃ expected, m.getNextNonce tx.fromAddress = .ok expected ∧ tx.tx.nonce < expected := by
  rw [addToPool, bind_read, id_eq]
  cases hnon : m.getNextNonce tx.fromAddress with
  | error p =>
    rw [bind_checked_of_error rfl]
    simp
  | ok expected =>
    have hexp : (∃ nonce, (.ok expected : Checked U256) = .ok nonce ∧ tx.tx.nonce < nonce) ↔
        tx.tx.nonce < expected := by simp
    rw [bind_checked_of_ok rfl, hexp]
    by_cases hjoin : tx.tx.nonce = expected
    · have hle : ¬ tx.tx.nonce < expected := by simp [hjoin]
      rw [if_pos hjoin, bind_update]
      exact iff_of_false promoteQueued_ne_err fun h => hle h.2.2
    · rw [if_neg hjoin]
      by_cases hwait : expected < tx.tx.nonce
      · rw [if_pos hwait]
        refine iff_of_false ?_ fun h => BitVec.lt_asymm hwait h.2.2
        intro h
        cases h
      · have hlow : tx.tx.nonce < expected := by
          have hne : tx.tx.nonce.toNat ≠ expected.toNat := mt BitVec.eq_of_toNat_eq hjoin
          rw [BitVec.lt_def] at hwait ⊢
          omega
        rw [if_neg hwait]
        change Outcome.err _ (m.rejected tx) = _ ↔ _
        simp [hlow, eq_comm]

structure SameContents (pool pool' : TransactionPool Q) : Prop where
  pending : pool'.pending = pool.pending
  queued : pool'.queued = pool.queued
  all : pool'.all = pool.all
  prices : PriorityQueue.content pool'.priceHeap = PriorityQueue.content pool.priceHeap

theorem SameContents.refl (pool : TransactionPool Q) : pool.SameContents pool :=
  ⟨rfl, rfl, rfl, rfl⟩

theorem SameContents.index_eq (h : pool.SameContents pool') : pool'.index = pool.index := by
  have hlane : pool'.lane = pool.lane := by
    funext addr
    rw [lane, lane, h.pending, h.queued]
  rw [index, index, h.all, h.prices, hlane]

theorem sameContents_rejected (H : m.index.Consistent) (h : tx.hash ∉ m.all) :
    m.SameContents (m.rejected tx) where
  pending := rfl
  queued := rfl
  all := HashMap.erase_insert h tx
  prices := by
    rw [rejected, content_remove, content_push]
    exact HashMap.erase_insert (mt (H.priced _).mp h) _

theorem priced_foldl_removeTransaction (H : m.Sound) (h : m.index.Priced) (hashes : List H256) :
    (hashes.foldl (fun pool hash => (pool.removeTransaction hash).2) m).index.Priced := by
  induction hashes generalizing m with
  | nil => exact h
  | cons hash hashes ih =>
    refine ih (H.removeTransaction hash) ?_
    rw [index_removeTransaction H.consistent hash]
    exact h.drop hash

variable [Crypto] [Recovery] {cfg : TxPoolConfig} {now : Nat} {t : Transaction}

theorem addTransaction_eq (H : m.index.Consistent) (htx : PooledTransaction.new now t = .ok tx) :
    addTransaction now t m =
      if tx.hash ∈ m.all then .err .alreadyExists m
      else if tx.gasPrice < m.config.priceLimit then .err .gasPriceTooLow m
      else if m.HasRoom tx then
        (addToPool tx >>= fun _ => update (send · (.newTransaction tx.hash)) >>= fun _ =>
          pure tx.hash) (m.cleared tx)
      else .err .poolFull m := by
  rw [addTransaction, bind_checked_of_ok htx, bind_read, id_eq]
  by_cases hold : tx.hash ∈ m.all
  · rw [if_pos hold, if_pos hold]
    rfl
  · rw [if_neg hold, if_neg hold]
    by_cases hche : tx.gasPrice < m.config.priceLimit
    · rw [if_pos hche, if_pos hche]
      rfl
    · rw [if_neg hche, if_neg hche]
      have hroom : makeRoom tx m = _ := makeRoom_eq H
      by_cases h : m.HasRoom tx
      · rw [if_pos h] at hroom ⊢
        exact bind_of_ok hroom
      · rw [if_neg h] at hroom ⊢
        exact bind_of_err hroom

theorem exists_pooled (h : ∀ p, addTransaction now t m ≠ .panic p) :
    ∃ tx, PooledTransaction.new now t = .ok tx := by
  cases hnew : PooledTransaction.new now t with
  | ok tx => exact ⟨tx, rfl⟩
  | error p => exact (h p (bind_checked_of_error hnew)).elim

/-- The nonce of a transaction that gets room is below the next one of its sender, without what is
evicted. -/
structure ComesTooLate (pool : TransactionPool Q) (tx : PooledTransaction) : Prop where
  fresh : tx.hash ∉ pool.all
  affordable : ¬ tx.gasPrice < pool.config.priceLimit
  room : pool.HasRoom tx
  nonce : ∃ expected : U256, expected.toNat = ((pool.lane tx.fromAddress).retain
    fun old => pool.evicted tx != some old.hash).next (·.number) ∧ tx.tx.nonce < expected

theorem addTransaction_of_comesTooLate (H : m.index.Consistent)
    (htx : PooledTransaction.new now t = .ok tx) (h : m.ComesTooLate tx) :
    addTransaction now t m = .err .nonceTooLow ((m.cleared tx).rejected tx) := by
  rw [addTransaction_eq H htx, if_neg h.fresh, if_neg h.affordable, if_pos h.room]
  have hnon := h.nonce
  simp only [← getNextNonce_cleared H] at hnon
  exact bind_of_err (addToPool_eq_err_iff.mpr ⟨rfl, rfl, hnon⟩)

theorem of_addTransaction_eq_err (H : m.index.Consistent) {e : TxPoolError}
    (h : addTransaction now t m = .err e pool) :
    pool = m ∨ ∃ tx, PooledTransaction.new now t = .ok tx ∧ m.ComesTooLate tx ∧
      pool = (m.cleared tx).rejected tx := by
  obtain ⟨tx, htx⟩ : ∃ tx, PooledTransaction.new now t = .ok tx :=
    exists_pooled fun p hp => by rw [hp] at h; cases h
  rw [addTransaction_eq H htx] at h
  split_ifs at h with hold hche hroom
  · cases h
    exact .inl rfl
  · cases h
    exact .inl rfl
  · cases hadd : addToPool tx (m.cleared tx) with
    | ok u room =>
      rw [bind_of_ok hadd] at h
      cases h
    | err e' room =>
      rw [bind_of_err hadd] at h
      cases h
      obtain ⟨-, hpool, hnon⟩ := addToPool_eq_err_iff.mp hadd
      simp only [getNextNonce_cleared H] at hnon
      exact .inr ⟨tx, htx, ⟨hold, hche, hroom, hnon⟩, hpool⟩
    | panic p =>
      rw [bind_of_panic hadd] at h
      cases h
  · cases h
    exact .inl rfl

theorem Step.priced (h : Step m op pool) (H : m.Sound)
    (hpri : m.index.Priced) : pool.index.Priced := by
  have hcle : ∀ tx, (m.cleared tx).index.Priced := fun tx =>
    priced_cleared H.consistent hpri
  cases h with
  | addOk h =>
    obtain ⟨tx, htx⟩ := exists_pooled fun p hp => by rw [hp] at h; cases h
    rw [addTransaction_eq H.consistent htx] at h
    split_ifs at h with hold hche hroom
    obtain ⟨_, room, hadd, hsend⟩ := bind_eq_ok.mp h
    cases hsend
    have hnew := notMem_cleared H.consistent hold
    have hprc := mt ((consistent_cleared H.consistent).priced _).mp hnew
    obtain ⟨-, lane, -, hidx⟩ := (addToPool_spec hnew hprc).of_ok hadd
    change room.index.Priced
    rw [hidx]
    exact (hcle tx).put tx lane
  | addErr h =>
    rcases of_addTransaction_eq_err H.consistent h with rfl | ⟨tx, -, hlate, rfl⟩
    · exact hpri
    · have hsame := sameContents_rejected (consistent_cleared H.consistent)
        (notMem_cleared H.consistent hlate.fresh)
      rw [hsame.index_eq]
      exact hcle tx
  | remove =>
    rw [index_removeTransaction H.consistent]
    exact hpri.drop _
  | clear =>
    have hemp : m.clear.index = .empty := index_new (Q := Q) m.config
    rw [hemp]
    exact Index.priced_empty
  | maintenance => exact priced_foldl_removeTransaction H hpri _

theorem Reaches.priced (h : Reaches (fun _ _ => True) cfg pool) :
    pool.Sound ∧ pool.index.Priced := by
  refine h.induct (fun s => s.index.Priced) ?_ ?_
  · rw [index_new]
    exact Index.priced_empty
  · intro s op s' hsnd hpri _ hstep
    exact hstep.priced hsnd hpri

/-- A failed `add_transaction` leaves the contents of the pool as they were, unless a transaction
has been evicted for one whose nonce is too low. -/
theorem failed_add_keeps_iff (h : Reaches (fun _ _ => True) cfg pool) (now : Nat)
    (t : Transaction) :
    (∀ e pool', addTransaction now t pool = .err e pool' → pool.SameContents pool') ↔
      ¬ ∃ tx, PooledTransaction.new now t = .ok tx ∧ pool.ComesTooLate tx ∧
        (pool.evicted tx).isSome := by
  have H := h.priced.1.consistent
  have hcon : ∀ tx, pool.ComesTooLate tx →
      (pool.cleared tx).SameContents ((pool.cleared tx).rejected tx) := fun tx hlate =>
    sameContents_rejected (consistent_cleared H) (notMem_cleared H hlate.fresh)
  constructor
  · rintro hkee ⟨tx, htx, hlate, hevi⟩
    obtain ⟨hash, hhash⟩ := Option.isSome_iff_exists.mp hevi
    have hsame := hkee _ _ (addTransaction_of_comesTooLate H htx hlate)
    have hall : pool.all = pool.all.erase hash :=
      calc pool.all = ((pool.cleared tx).rejected tx).all := hsame.all.symm
        _ = (pool.cleared tx).all := (hcon tx hlate).all
        _ = pool.all.erase hash := by
          rw [all_of_index (index_cleared H), hhash]
          rfl
    have hmem := mem_of_evicted H hhash
    rw [hall] at hmem
    exact notMem_erase_self hmem
  · intro hnot e pool' herr
    rcases of_addTransaction_eq_err H herr with rfl | ⟨tx, htx, hlate, rfl⟩
    · exact .refl _
    · have hnone : pool.evicted tx = none := by
        rw [← Option.not_isSome_iff_eq_none]
        exact fun hsome => hnot ⟨tx, htx, hlate, hsome⟩
      have hkeep := hcon tx hlate
      rwa [cleared_of_none hnone] at hkeep ⊢

end

section
variable {Q : Type} [PriorityQueue Q H256 TxPriority] {m pool : TransactionPool Q}
  {tx : PooledTransaction}

theorem lookup_of_peek (h : pool.index.Priced) {hash : H256}
    (hpeek : peek pool.priceHeap = some (hash, priority)) :
    ∃ old, pool.all.lookup hash = some old ∧ priority = ⟨old.gasPrice⟩ ∧
      ∀ hash' other, pool.all.lookup hash' = some other → other.gasPrice ≤ old.gasPrice := by
  obtain ⟨hget, hmax⟩ := peek_some hpeek
  have hpri : ∀ hash, (content pool.priceHeap).lookup hash =
      (pool.all.lookup hash).map fun tx => ⟨tx.gasPrice⟩ := h
  rw [hpri, Option.map_eq_some_iff] at hget
  obtain ⟨old, hold, rfl⟩ := hget
  refine ⟨old, hold, rfl, ?_⟩
  intro hash' other hoth
  exact hmax hash' ⟨other.gasPrice⟩ (by rw [hpri, hoth]; rfl)

theorem lookup_of_peek_none (h : pool.index.Priced) (hpeek : peek pool.priceHeap = none)
    (hash : H256) : pool.all.lookup hash = none := by
  have hprc := h hash
  rw [index, peek_none hpeek] at hprc
  exact Option.map_eq_none_iff.mp hprc.symm

/-- Some pooled transaction pays less. -/
def HasCheaper (pool : TransactionPool Q) (tx : PooledTransaction) : Prop :=
  ∃ hash old, pool.all.lookup hash = some old ∧ old.gasPrice < tx.gasPrice

/-- All pooled transactions pay the same. -/
def OnePrice (pool : TransactionPool Q) : Prop :=
  ∀ hash old hash' other, pool.all.lookup hash = some old → pool.all.lookup hash' = some other →
    old.gasPrice = other.gasPrice

structure EvictsCheapest (pool : TransactionPool Q) (tx : PooledTransaction) : Prop where
  succeeds : (∃ room, makeRoom tx pool = .ok () room) ↔ pool.HasCheaper tx
  cheapest : ∀ room, makeRoom tx pool = .ok () room →
    ∃ hash old, pool.all.lookup hash = some old ∧ room.all = pool.all.erase hash ∧
      ∀ hash' other, pool.all.lookup hash' = some other → old.gasPrice ≤ other.gasPrice

theorem makeRoom_eq_ok_iff (H : pool.index.Consistent)
    (hfull : pool.config.maxSize ≤ pool.all.keys.card) {room : TransactionPool Q} :
    makeRoom tx pool = .ok () room ↔
      (pool.victim tx).isSome ∧ room = (pool.evictTransaction tx).2 := by
  have hroom : pool.HasRoom tx ↔ (pool.victim tx).isSome := or_iff_right (not_lt.mpr hfull)
  rw [makeRoom_eq H, cleared_of_le hfull, ← hroom]
  split_ifs with h
  · simp [h, eq_comm]
  · simp [h]

theorem evictsCheapest_of_none (H : pool.index.Consistent)
    (hfull : pool.config.maxSize ≤ pool.all.keys.card) (hvic : pool.victim tx = none) :
    pool.EvictsCheapest tx ↔ ¬ pool.HasCheaper tx := by
  have hroom : ∀ room, ¬ makeRoom tx pool = .ok () room := by
    intro room
    rw [makeRoom_eq_ok_iff H hfull, hvic]
    exact fun h => Bool.false_ne_true h.1
  constructor
  · intro h hche
    obtain ⟨room, hok⟩ := h.succeeds.mpr hche
    exact hroom room hok
  · intro h
    exact ⟨iff_of_false (fun ⟨room, hok⟩ => hroom room hok) h,
      fun room hok => (hroom room hok).elim⟩

theorem evictsCheapest_of_some (H : pool.index.Consistent)
    (hfull : pool.config.maxSize ≤ pool.all.keys.card) {hash : H256}
    (hvic : pool.victim tx = some hash) (hold : pool.all.lookup hash = some old)
    (hlt : old.gasPrice < tx.gasPrice)
    (hmax : ∀ hash' other, pool.all.lookup hash' = some other → other.gasPrice ≤ old.gasPrice) :
    pool.EvictsCheapest tx ↔ pool.OnePrice := by
  have hidx := (evictTransaction_of_some H hvic).2.1
  have hall : (pool.evictTransaction tx).2.all = pool.all.erase hash := all_of_index hidx
  have hroom : ∀ room, makeRoom tx pool = .ok () room ↔ room = (pool.evictTransaction tx).2 := by
    intro room
    rw [makeRoom_eq_ok_iff H hfull, hvic]
    exact and_iff_right rfl
  constructor
  · intro h
    obtain ⟨hash', old', hold', hall', hmin⟩ := h.cheapest _ ((hroom _).mpr rfl)
    have hsame : hash' = hash := by
      by_contra hne
      have hmem : hash' ∈ pool.all.erase hash := mem_erase.mpr ⟨hne, mem_of_lookup_eq_some hold'⟩
      rw [← hall, hall'] at hmem
      exact notMem_erase_self hmem
    rw [hsame, hold] at hold'
    obtain rfl := Option.some.inj hold'
    have hflat : ∀ hash other, pool.all.lookup hash = some other →
        other.gasPrice = old.gasPrice := fun hash other hoth =>
      BitVec.le_antisymm (hmax hash other hoth) (hmin hash other hoth)
    intro hash₁ tx₁ hash₂ tx₂ h₁ h₂
    rw [hflat hash₁ tx₁ h₁, hflat hash₂ tx₂ h₂]
  · intro h
    refine ⟨iff_of_true ⟨_, (hroom _).mpr rfl⟩ ⟨hash, old, hold, hlt⟩, ?_⟩
    intro room hok
    rw [(hroom room).mp hok]
    refine ⟨hash, old, hold, hall, ?_⟩
    intro hash' other hoth
    rw [h hash old hash' other hold hoth]
    exact BitVec.le_refl _

variable [Crypto] [Recovery] {cfg : TxPoolConfig}

/-- In a full pool the eviction is as intended exactly when no transaction of the pool is cheaper
than the new one, or all of them have the same price. -/
theorem evictsCheapest_iff (h : Reaches (fun _ _ => True) cfg pool)
    (hfull : pool.all.keys.card = pool.config.maxSize) (tx : PooledTransaction) :
    pool.EvictsCheapest tx ↔ ¬ pool.HasCheaper tx ∨ pool.OnePrice := by
  obtain ⟨hsnd, hpri⟩ := h.priced
  have H := hsnd.consistent
  cases hpeek : peek pool.priceHeap with
  | none =>
    have hnot : ¬ pool.HasCheaper tx := by
      rintro ⟨hash, old, hold, -⟩
      rw [lookup_of_peek_none hpri hpeek hash] at hold
      cases hold
    have hvic : pool.victim tx = none := by rw [victim, hpeek]
    rw [evictsCheapest_of_none H hfull.ge hvic]
    exact iff_of_true hnot (.inl hnot)
  | some entry =>
    obtain ⟨hash, priority⟩ := entry
    obtain ⟨old, hold, rfl, hmax⟩ := lookup_of_peek hpri hpeek
    by_cases hlt : old.gasPrice < tx.gasPrice
    · have hvic : pool.victim tx = some hash := by
        rw [victim, hpeek]
        exact if_pos hlt
      rw [evictsCheapest_of_some H hfull.ge hvic hold hlt hmax]
      exact (or_iff_right (not_not_intro ⟨hash, old, hold, hlt⟩)).symm
    · have hvic : pool.victim tx = none := by
        rw [victim, hpeek]
        exact if_neg hlt
      rw [evictsCheapest_of_none H hfull.ge hvic]
      refine (or_iff_left_of_imp ?_).symm
      -- no transaction is cheaper if none is cheaper than the dearest one
      rintro hone ⟨hash', other, hoth, hche⟩
      rw [← hone hash old hash' other hold hoth] at hche
      exact hlt hche

end

section
open Sized Unrecovered

def twoSlots : TxPoolConfig := { TxPoolConfig.default with maxSize := 2 }

def failure (t : Transaction) (self : ListPool) : Option (TxPoolError × Nat) :=
  match addTransaction 0 t self with
  | .err e pool => some (e, pool.all.keys.card)
  | _ => none

theorem of_failure_eq (h : m.failure t = some (e, n)) :
    ∃ pool, addTransaction 0 t m = .err e pool ∧ pool.all.keys.card = n := by
  unfold failure at h
  split at h
  · rename_i herr
    cases h
    exact ⟨_, herr, rfl⟩
  · cases h

/-- The highest price is paid by the transaction with nonce 0. It is evicted, and then the new
transaction with nonce 0 is rejected. -/
theorem evicted_for_nothing : ∃ pool pool' : ListPool,
    Reaches (fun _ _ => True) twoSlots pool ∧ pool.all.keys.card = 2 ∧
      addTransaction 0 (offer 0 2 3000000000) pool = .err .nonceTooLow pool' ∧
      pool'.all.keys.card = 1 := by
  obtain ⟨pool, hrch, hobs⟩ := reaches_of_perform twoSlots
    (fun pool : ListPool => (pool.all.keys.card, pool.failure (offer 0 2 3000000000)))
    [.add 0 (offer 0 0 2000000000), .add 0 (offer 1 1 1000000000)]
    (b := (2, some (.nonceTooLow, 1))) (by decide +kernel)
  obtain ⟨hcard, hfai⟩ := Prod.mk.inj hobs
  obtain ⟨pool', herr, hcard'⟩ := of_failure_eq hfai
  exact ⟨pool, pool', hrch, hcard, herr, hcard'⟩

def evictedFor (t : Transaction) (self : ListPool) : Option H256 :=
  match PooledTransaction.new 0 t with
  | .ok tx => self.evicted tx
  | .error _ => none

theorem failed_add_keeps_full : ∃ pool pool' : ListPool, pool.all.keys.card = 2 ∧
    addTransaction 0 (offer 2 2 2000000000) pool = .err .poolFull pool' ∧
      pool.SameContents pool' := by
  obtain ⟨pool, hrch, hobs⟩ := reaches_of_perform twoSlots
    (fun pool : ListPool => (pool.all.keys.card, pool.failure (offer 2 2 2000000000),
      pool.evictedFor (offer 2 2 2000000000)))
    [.add 0 (offer 0 0 1000000000), .add 0 (offer 1 1 3000000000)]
    (b := (2, some (.poolFull, 2), none)) (by decide +kernel)
  obtain ⟨hcard, hobs⟩ := Prod.mk.inj hobs
  obtain ⟨hfai, hkept⟩ := Prod.mk.inj hobs
  obtain ⟨pool', herr, -⟩ := of_failure_eq hfai
  refine ⟨pool, pool', hcard, herr, (failed_add_keeps_iff hrch 0 _).mpr ?_ _ _ herr⟩
  rintro ⟨tx, htx, -, hevi⟩
  rw [evictedFor, htx] at hkept
  rw [show pool.evicted tx = none from hkept] at hevi
  cases hevi

/-- A transaction at two gwei is refused by a pool with one at one gwei, since the other one pays
three. -/
theorem cheapest_not_evicted : ∃ pool : ListPool,
    Reaches (fun _ _ => True) twoSlots pool ∧ pool.all.keys.card = 2 ∧
      (∃ old, pool.all.lookup (offer 0 0 1000000000).hash = some old ∧ old.gasPrice = 1000000000) ∧
      ∃ pool', addTransaction 0 (offer 2 2 2000000000) pool = .err .poolFull pool' := by
  obtain ⟨pool, hrch, hobs⟩ := reaches_of_perform twoSlots
    (fun pool : ListPool => (pool.all.keys.card,
      (pool.all.lookup (offer 0 0 1000000000).hash).map (·.gasPrice),
      pool.failure (offer 2 2 2000000000)))
    [.add 0 (offer 0 0 1000000000), .add 0 (offer 1 1 3000000000)]
    (b := (2, some 1000000000, some (.poolFull, 2))) (by decide +kernel)
  obtain ⟨hcard, hobs⟩ := Prod.mk.inj hobs
  obtain ⟨hprc, hfai⟩ := Prod.mk.inj hobs
  obtain ⟨pool', herr, -⟩ := of_failure_eq hfai
  exact ⟨pool, hrch, hcard, Option.map_eq_some_iff.mp hprc, pool', herr⟩

theorem not_evictsCheapest_sample :
    ∃ (pool : ListPool) (tx : PooledTransaction),
      PooledTransaction.new 0 (offer 2 2 2000000000) = .ok tx ∧ pool.all.keys.card = 2 ∧
        ¬ pool.EvictsCheapest tx := by
  obtain ⟨tx, htx, hgas⟩ : ∃ tx, PooledTransaction.new 0 (offer 2 2 2000000000) = .ok tx ∧
      tx.gasPrice = 2000000000 := ⟨_, rfl, rfl⟩
  obtain ⟨pool, hrch, hobs⟩ := reaches_of_perform twoSlots
    (fun pool : ListPool => (pool.all.keys.card, pool.config.maxSize,
      (pool.all.lookup (offer 0 0 1000000000).hash).map (·.gasPrice),
      (pool.all.lookup (offer 1 1 3000000000).hash).map (·.gasPrice)))
    [.add 0 (offer 0 0 1000000000), .add 0 (offer 1 1 3000000000)]
    (b := (2, 2, some 1000000000, some 3000000000)) (by decide +kernel)
  obtain ⟨hcard, hobs⟩ := Prod.mk.inj hobs
  obtain ⟨hsize, hobs⟩ := Prod.mk.inj hobs
  obtain ⟨hlow, hhigh⟩ := Prod.mk.inj hobs
  obtain ⟨low, hlow, hone⟩ := Option.map_eq_some_iff.mp hlow
  obtain ⟨high, hhigh, hthr⟩ := Option.map_eq_some_iff.mp hhigh
  refine ⟨pool, tx, htx, hcard, ?_⟩
  rw [evictsCheapest_iff hrch (hcard.trans hsize.symm) tx]
  rintro (hche | hprc)
  · exact hche ⟨_, low, hlow, by rw [hone, hgas]; decide⟩
  · have heq := hprc _ low _ high hlow hhigh
    rw [hone, hthr] at heq
    revert heq
    decide

end

end TransactionPool

end EthereumRust.Txpool
