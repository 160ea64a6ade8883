import EthereumRust.Txpool.Index

/-!
# What a call does to the pool

Every completed call drops transactions and may let one arrive. Which ones these are can be read off
the state before the call (`removes`, `arrival`), and so can the lanes after it (`after`).
-/

namespace EthereumRust.Txpool
open Rust Method EthereumRust.Core Function Lane PriorityQueue
open List hiding all

section
variable {lists : Lists} {addr other : Address} {txs : List PooledTransaction} {hash : H256}

theorem Lists.getD_extend : ((lists.extend addr txs).lookup other).getD [] =
    if other = addr then (lists.lookup addr).getD [] ++ txs
    else (lists.lookup other).getD [] := HashMap.getD_insert ..

theorem Lists.getD_self : (lists.lookup other).getD [] =
    if other = addr then (lists.lookup addr).getD [] else (lists.lookup other).getD [] := by
  split_ifs with h
  · rw [h]
  · rfl

theorem Lists.getD_retain : ((lists.retain addr hash).lookup other).getD [] =
    if other = addr then ((lists.lookup addr).getD []).filter (·.hash != hash)
    else (lists.lookup other).getD [] := by
  rw [retain]
  cases hget : lists.lookup addr with
  | none =>
    split_ifs with h
    · rw [h, hget]
      rfl
    · rfl
  | some txs => exact HashMap.getD_insert ..

end

theorem promotable_eq_sift {e : U256} (hpos : 0 < e.toNat)
    (hlen : e.toNat + promoted.length ≤ 2 ^ 256) (h : promotable e txs promoted = .ok (kept, all)) :
    kept = (sift (·.number) (e.toNat + promoted.length) txs).1 ∧
      all = promoted ++ (sift (·.number) (e.toNat + promoted.length) txs).2 := by
  induction txs generalizing promoted kept with
  | nil =>
    cases h
    exact ⟨rfl, (append_nil _).symm⟩
  | cons tx txs ih =>
    obtain ⟨nonce, hnon, h⟩ := h.of_bind
    have hcnt : (U256.ofUsize promoted.length).toNat = promoted.length :=
      BitVec.toNat_ofNat _ _ |>.trans (Nat.mod_eq_of_lt (by omega))
    rw [U256.add_eq_ok, hcnt] at hnon
    have hiff : tx.tx.nonce = nonce ↔ tx.number = e.toNat + promoted.length := by
      rw [← hnon]
      exact BitVec.toNat_inj.symm
    rw [sift]
    split_ifs at h with heq
    · rw [if_pos (hiff.mp heq)]
      have hstep := ih (by rw [length_append, length_singleton]; omega) h
      rw [length_append, length_singleton, ← add_assoc] at hstep
      refine ⟨hstep.1, hstep.2.trans ?_⟩
      rw [append_assoc, singleton_append]
    · rw [if_neg (mt hiff.mpr heq)]
      obtain ⟨⟨kept', all'⟩, hrest, h⟩ := h.of_bind
      cases h
      obtain ⟨rfl, rfl⟩ := ih hlen hrest
      exact ⟨rfl, rfl⟩

/-- The calls that change a pool. A call of `run_maintenance` stands for one round of its loop. -/
inductive Op where
  | add (now : Nat) (tx : Transaction)
  | remove (hash : H256)
  | clear
  | maintenance (now : Nat)

namespace TransactionPool

variable {Q : Type} {self : TransactionPool Q}

/-- The two lists of a sender. -/
def lane (self : TransactionPool Q) (address : Address) : Lane PooledTransaction where
  pending := (self.pending.lookup address).getD []
  queued := (self.queued.lookup address).getD []

theorem getNextNonce_eq_ok :
    self.getNextNonce addr = .ok nonce ↔ nonce.toNat = (self.lane addr).next (·.number) := by
  rw [getNextNonce, Lane.next, lane]
  cases ((self.pending.lookup addr).getD []).getLast? with
  | none =>
    rw [Except.ok.injEq, ← BitVec.toNat_inj]
    exact eq_comm
  | some tx => exact U256.add_eq_ok

theorem lane_eq_update {pool : TransactionPool Q} {pend queued : List PooledTransaction}
    (hpnd : ∀ other, (pool.pending.lookup other).getD [] =
      if other = addr then pend else (self.pending.lookup other).getD [])
    (hq : ∀ other, (pool.queued.lookup other).getD [] =
      if other = addr then queued else (self.queued.lookup other).getD []) :
    pool.lane = update self.lane addr ⟨pend, queued⟩ := by
  funext other
  rw [lane, hpnd, hq]
  split_ifs with h
  · rw [h, update_self]
  · rw [update_of_ne h]
    rfl

theorem promoteQueued_spec (hpos : 0 < (self.lane addr).next (·.number)) :
    Sat (promoteQueued addr) self
      (fun _ pool => pool.config = self.config ∧ pool.all = self.all ∧
        pool.priceHeap = self.priceHeap ∧
        pool.lane = update self.lane addr
          { pending := (self.lane addr).pending ++
              (sift (·.number) ((self.lane addr).next (·.number))
                (self.lane addr).queued).2
            queued :=
              (sift (·.number) ((self.lane addr).next (·.number))
                (self.lane addr).queued).1 })
      (fun _ _ => False) (fun _ => True) := by
  rw [promoteQueued, sat_bind, sat_read, sat_bind, sat_checked, id_eq]
  cases hnon : self.getNextNonce addr with
  | error p => trivial
  | ok nonce =>
    rw [← getNextNonce_eq_ok.mp hnon] at hpos ⊢
    cases htxs : self.queued.lookup addr with
    | none =>
      have hq : (self.lane addr).queued = [] := by rw [lane, htxs, Option.getD_none]
      refine ⟨rfl, rfl, rfl, ?_⟩
      rw [hq, sift, append_nil, ← hq]
      exact (update_eq_self addr self.lane).symm
    | some txs =>
      have hq : (self.lane addr).queued = txs := by rw [lane, htxs, Option.getD_some]
      dsimp only
      rw [sat_bind, sat_checked]
      cases hpass : promotable nonce txs [] with
      | error p => trivial
      | ok lists =>
        obtain ⟨kept, promoted⟩ := lists
        have hle : nonce.toNat + ([] : List PooledTransaction).length ≤ 2 ^ 256 :=
          le_of_lt nonce.isLt
        obtain ⟨hkept, hpro⟩ := promotable_eq_sift hpos hle hpass
        rw [length_nil, add_zero] at hkept hpro
        rw [nil_append] at hpro
        rw [hq, ← hkept, ← hpro]
        dsimp only
        have hins : ∀ other, ((self.queued.insert addr kept).lookup other).getD [] =
            if other = addr then kept else (self.queued.lookup other).getD [] := fun other =>
          HashMap.getD_insert ..
        split_ifs with hemp
        · rw [isEmpty_iff.mp hemp, append_nil]
          exact ⟨rfl, rfl, rfl, lane_eq_update (fun other => Lists.getD_self) hins⟩
        · exact ⟨rfl, rfl, rfl, lane_eq_update (fun other => Lists.getD_extend) hins⟩

section
variable [PriorityQueue Q H256 TxPriority] {tx : PooledTransaction} {hash : H256}

def index (self : TransactionPool Q) : Index where
  all := self.all
  prices := PriorityQueue.content self.priceHeap
  lane := self.lane

theorem index_new (cfg : TxPoolConfig) : (new cfg : TransactionPool Q).index = .empty := by
  rw [index, new, content_empty]
  rfl

theorem addToPool_spec (hnew : tx.hash ∉ self.all) (hprc : tx.hash ∉ content self.priceHeap) :
    Sat (addToPool tx) self
      (fun _ pool => pool.config = self.config ∧
        ∃ lane, (self.lane tx.fromAddress).arrive (·.number) tx = some lane ∧
          pool.index = self.index.put tx lane)
      (fun e pool => pool.config = self.config ∧ e = .nonceTooLow ∧
        (self.lane tx.fromAddress).arrive (·.number) tx = none ∧ pool.index = self.index)
      (fun _ => True) := by
  rw [addToPool, sat_bind, sat_read, sat_bind, sat_checked, id_eq]
  cases hnon : self.getNextNonce tx.fromAddress with
  | error p => trivial
  | ok nonce =>
    have hnext := getNextNonce_eq_ok.mp hnon
    have heq : tx.tx.nonce = nonce ↔ tx.number = (self.lane tx.fromAddress).next (·.number) := by
      rw [← hnext]
      exact BitVec.toNat_inj.symm
    have hlt : nonce < tx.tx.nonce ↔ (self.lane tx.fromAddress).next (·.number) < tx.number := by
      rw [← hnext]
      rfl
    dsimp only
    split_ifs with hjoin hwait
    · -- the transaction joins the line, and queued ones may follow it
      rw [sat_bind]
      let joined : TransactionPool Q := { self with
        all := self.all.insert tx.hash tx
        priceHeap := push self.priceHeap tx.hash ⟨tx.gasPrice⟩
        pending := self.pending.extend tx.fromAddress [tx] }
      have hjoi : joined.lane = update self.lane tx.fromAddress
          ⟨(self.lane tx.fromAddress).pending ++ [tx], (self.lane tx.fromAddress).queued⟩ :=
        lane_eq_update (fun other => Lists.getD_extend) fun other => Lists.getD_self
      have hlane : joined.lane tx.fromAddress =
          ⟨(self.lane tx.fromAddress).pending ++ [tx], (self.lane tx.fromAddress).queued⟩ := by
        rw [hjoi, update_self]
      have hpos : 0 < (joined.lane tx.fromAddress).next (·.number) := by
        rw [hlane, next_concat]
        exact Nat.succ_pos _
      refine (promoteQueued_spec hpos).mono ?_ (fun _ _ => False.elim) (fun _ => id)
      rintro - pool ⟨hcfg, hall, hheap, hpool⟩
      refine ⟨hcfg, _, if_pos (heq.mp hjoin), ?_⟩
      rw [hlane, next_concat, hjoi, update_idem, append_assoc] at hpool
      rw [index, hall, hheap, hpool, content_push]
      rfl
    · refine ⟨rfl, _, (if_neg (mt heq.mpr hjoin)).trans (if_pos (hlt.mp hwait)), ?_⟩
      rw [index, content_push]
      congr 1
      exact lane_eq_update (fun other => Lists.getD_self) fun other => Lists.getD_extend
    · refine ⟨rfl, rfl, (if_neg (mt heq.mpr hjoin)).trans (if_neg (mt hlt.mpr hwait)), ?_⟩
      have hall := HashMap.erase_insert hnew tx
      rw [index, content_remove, content_push,
        HashMap.erase_insert hprc]
      exact congrArg (Index.mk · _ _) hall

theorem lane_removeFromLists (H : self.index.Consistent) (htx : self.all.lookup tx.hash = some tx)
    (addr : Address) :
    (self.removeFromLists tx).lane addr = (self.lane addr).retain (·.hash != tx.hash) := by
  rw [lane, removeFromLists, Lists.getD_retain, Lists.getD_retain]
  split_ifs with h
  · rw [h]
    rfl
  · have hkeep : ∀ tx' ∈ (self.lane addr).items, (tx'.hash != tx.hash) = true := by
      intro tx' htx'
      rw [bne_iff_ne]
      intro heq
      obtain ⟨hfrom, hget⟩ := H.listed addr tx' htx'
      rw [heq] at hget
      obtain rfl := Option.some.inj (hget.symm.trans htx)
      exact h hfrom.symm
    rw [retain_eq_self hkeep]
    rfl

theorem index_drop (H : self.index.Consistent) (htx : self.all.lookup hash = some tx) :
    (send (removeFromLists { self with
      all := self.all.erase hash
      priceHeap := remove self.priceHeap hash } tx) event).index =
        self.index.drop hash := by
  obtain ⟨rfl, -⟩ := H.keyed hash tx htx
  have hlane := funext (lane_removeFromLists H htx)
  rw [index]
  congr 1
  · exact content_remove ..

theorem index_removeTransaction (H : self.index.Consistent) (hash : H256) :
    (self.removeTransaction hash).2.index = self.index.drop hash := by
  rw [removeTransaction]
  cases htx : self.all.lookup hash with
  | none => exact (H.drop_of_notMem (Finmap.lookup_eq_none.mp htx)).symm
  | some tx => exact index_drop H htx

structure Sound (pool : TransactionPool Q) : Prop where
  consistent : pool.index.Consistent
  size : pool.all.keys.card ≤ pool.config.maxSize

theorem sound_new (cfg : TxPoolConfig) : (new cfg : TransactionPool Q).Sound where
  consistent := index_new (Q := Q) cfg ▸ Index.consistent_empty
  size := Nat.zero_le _

theorem all_of_index {pool : TransactionPool Q} {index : Index} (h : pool.index = index) :
    pool.all = index.all := congrArg Index.all h

theorem lane_of_index {pool : TransactionPool Q} {index : Index} (h : pool.index = index) :
    pool.lane = index.lane := congrArg Index.lane h

theorem config_removeTransaction (hash : H256) :
    (self.removeTransaction hash).2.config = self.config := by
  rw [removeTransaction]
  cases self.all.lookup hash <;> rfl

theorem Sound.removeTransaction (H : self.Sound) (hash : H256) :
    (self.removeTransaction hash).2.Sound where
  consistent := index_removeTransaction H.consistent hash ▸ H.consistent.drop hash
  size := by
    rw [config_removeTransaction, all_of_index (index_removeTransaction H.consistent hash)]
    change (self.all.erase hash).keys.card ≤ _
    rw [Finmap.keys_erase]
    exact le_trans (Finset.card_le_card (Finset.erase_subset _ _)) H.size

theorem foldl_removeTransaction (H : self.Sound) (hashes : List H256) :
    (hashes.foldl (fun pool hash => (pool.removeTransaction hash).2) self).Sound ∧
      (hashes.foldl (fun pool hash => (pool.removeTransaction hash).2) self).config = self.config ∧
      ∀ addr,
        (hashes.foldl (fun pool hash => (pool.removeTransaction hash).2) self).lane addr =
        (self.lane addr).retain fun tx => tx.hash ∉ hashes := by
  induction hashes generalizing self with
  | nil => exact ⟨H, rfl, fun addr => (retain_eq_self fun _ _ => rfl).symm⟩
  | cons hash hashes ih =>
    obtain ⟨hsnd, hcfg, hlane⟩ := ih (H.removeTransaction hash)
    refine ⟨hsnd, hcfg.trans (config_removeTransaction hash), fun addr => ?_⟩
    rw [foldl_cons, hlane, lane_of_index (index_removeTransaction H.consistent hash)]
    change ((self.lane addr).retain _).retain _ = _
    rw [retain_retain]
    refine retain_congr fun tx _ => ?_
    rw [Bool.eq_iff_iff]
    simp [and_comm]

def victim (self : TransactionPool Q) (newTx : PooledTransaction) : Option H256 :=
  match PriorityQueue.peek self.priceHeap with
  | none => none
  | some (hash, priority) => if priority.price < newTx.gasPrice then some hash else none

/-- The hash of the transaction that makes room for a new one. -/
def evicted (self : TransactionPool Q) (newTx : PooledTransaction) : Option H256 :=
  if self.config.maxSize ≤ self.all.keys.card then self.victim newTx else none

def HasRoom (self : TransactionPool Q) (newTx : PooledTransaction) : Prop :=
  self.all.keys.card < self.config.maxSize ∨ (self.victim newTx).isSome

instance (newTx : PooledTransaction) : Decidable (self.HasRoom newTx) :=
  inferInstanceAs (Decidable (_ ∨ _))

theorem evictTransaction_of_none (h : self.victim tx = none) :
    self.evictTransaction tx = (false, self) := by
  rw [victim] at h
  rw [evictTransaction]
  cases hpeek : peek self.priceHeap with
  | none => rfl
  | some entry =>
    rw [hpeek] at h
    dsimp only at h ⊢
    split_ifs at h with hlt
    rw [if_neg hlt]

theorem evictTransaction_of_some (H : self.index.Consistent) (h : self.victim tx = some hash) :
    (self.evictTransaction tx).1 = true ∧
      (self.evictTransaction tx).2.index = self.index.drop hash ∧
      (self.evictTransaction tx).2.config = self.config ∧ hash ∈ self.all := by
  rw [victim] at h
  rw [evictTransaction]
  cases hpeek : peek self.priceHeap with
  | none =>
    rw [hpeek] at h
    cases h
  | some entry =>
    rw [hpeek] at h
    dsimp only at h ⊢
    split_ifs at h with hlt
    obtain rfl := Option.some.inj h
    have hmem : entry.1 ∈ self.all :=
      (H.priced _).mp (Finmap.mem_of_lookup_eq_some (peek_some hpeek).1)
    obtain ⟨old, hold⟩ := Finmap.mem_iff.mp hmem
    rw [if_pos hlt, hold]
    exact ⟨rfl, index_drop H hold, rfl, hmem⟩

theorem makeRoom_spec (H : self.Sound) (hnew : tx.hash ∉ self.all) :
    Sat (makeRoom tx) self
      (fun _ pool => pool.config = self.config ∧ self.HasRoom tx ∧ pool.index.Consistent ∧
        tx.hash ∉ pool.all ∧ pool.all.keys.card < self.config.maxSize ∧
        ∀ addr, pool.lane addr = (self.lane addr).retain fun t => self.evicted tx != some t.hash)
      (fun _ pool => pool = self ∧ ¬self.HasRoom tx)
      (fun _ => True) := by
  rw [makeRoom, sat_bind, sat_read, id_eq]
  split_ifs with hfull
  · have hevi : self.evicted tx = self.victim tx := if_pos hfull
    cases hvic : self.victim tx with
    | none =>
      rw [evictTransaction_of_none hvic]
      refine ⟨rfl, ?_⟩
      rintro (hlt | hsome)
      · omega
      · rw [hvic] at hsome
        cases hsome
    | some hash =>
      obtain ⟨htrue, hidx, hcfg, hmem⟩ := evictTransaction_of_some H.consistent hvic
      have hall := all_of_index hidx
      rw [sat_bind, htrue]
      refine ⟨hcfg, .inr (hvic ▸ rfl), ?_, ?_, ?_, fun addr => ?_⟩
      · rw [hidx]
        exact H.consistent.drop hash
      · rw [hall]
        exact fun h => hnew (Finmap.mem_erase.mp h).2
      · rw [hall]
        change (self.all.erase hash).keys.card < _
        have hlt := Finset.card_erase_lt_of_mem (Finmap.mem_keys.mpr hmem)
        rw [Finmap.keys_erase]
        exact lt_of_lt_of_le hlt H.size
      · rw [lane_of_index hidx, hevi, hvic]
        refine congrArg (retain · _) (funext fun t => ?_)
        rw [Bool.eq_iff_iff, bne_iff_ne, bne_iff_ne, ne_eq, ne_eq, Option.some_inj, eq_comm]
  · have hlt := Nat.lt_of_not_le hfull
    refine ⟨rfl, .inl hlt, H.consistent, hnew, hlt, fun addr => ?_⟩
    rw [retain_eq_self]
    intro t _
    rw [evicted, if_neg hfull]
    rfl

variable [Crypto] [Recovery]

def arrival (self : TransactionPool Q) : Op → Option PooledTransaction
  | .add now tx =>
    match PooledTransaction.new now tx with
    | .ok pooled =>
      if pooled.hash ∉ self.all ∧ ¬pooled.gasPrice < self.config.priceLimit ∧
          self.HasRoom pooled then
        some pooled
      else none
    | .error _ => none
  | _ => none

def removes (self : TransactionPool Q) (op : Op) (tx : PooledTransaction) : Bool :=
  match op with
  | .add _ _ =>
    match self.arrival op with
    | some newTx => self.evicted newTx == some tx.hash
    | none => false
  | .remove hash => tx.hash == hash
  | .clear => true
  | .maintenance now => self.expired now tx.hash

def rest (self : TransactionPool Q) (op : Op) (address : Address) : Lane PooledTransaction :=
  (self.lane address).retain fun tx => !self.removes op tx

def after (self : TransactionPool Q) (op : Op) (address : Address) : Lane PooledTransaction :=
  match self.arrival op with
  | some tx =>
    if address = tx.fromAddress then
      ((self.rest op address).arrive (·.number) tx).getD (self.rest op address)
    else self.rest op address
  | none => self.rest op address

inductive Step : TransactionPool Q → Op → TransactionPool Q → Prop where
  | addOk {s s' : TransactionPool Q} {now : Nat} {tx : Transaction} {hash : H256} :
      addTransaction now tx s = .ok hash s' → Step s (.add now tx) s'
  | addErr {s s' : TransactionPool Q} {now : Nat} {tx : Transaction} {e : TxPoolError} :
      addTransaction now tx s = .err e s' → Step s (.add now tx) s'
  | remove {s : TransactionPool Q} {hash : H256} :
      Step s (.remove hash) (s.removeTransaction hash).2
  | clear {s : TransactionPool Q} : Step s .clear s.clear
  | maintenance {s : TransactionPool Q} {now : Nat} {order : List H256} : order.Nodup →
      (∀ hash, hash ∈ order ↔ hash ∈ s.all) → Step s (.maintenance now) (s.runMaintenance now order)

theorem rest_of_arrival_none {tx : Transaction}
    (h : self.arrival (.add now tx) = none) : self.rest (.add now tx) = self.lane := by
  funext addr
  refine retain_eq_self fun t _ => ?_
  rw [removes, h]
  rfl

theorem addTransaction_spec (H : self.Sound) (tx : Transaction) :
    Sat (addTransaction now tx) self
      (fun hash pool => pool.Sound ∧ pool.config = self.config ∧
        ∃ t lane, self.arrival (.add now tx) = some t ∧ t.hash = hash ∧
          (self.rest (.add now tx) t.fromAddress).arrive (·.number) t = some lane ∧
          pool.lane = update (self.rest (.add now tx)) t.fromAddress lane)
      (fun _ pool => pool.Sound ∧ pool.config = self.config ∧
        pool.lane = self.rest (.add now tx) ∧
        ∀ t, self.arrival (.add now tx) = some t →
          (self.rest (.add now tx) t.fromAddress).arrive (·.number) t = none)
      (fun _ => True) := by
  -- a call that fails before `add_to_pool` changes nothing
  have hear : self.arrival (.add now tx) = none →
      self.Sound ∧ self.config = self.config ∧ self.lane = self.rest (.add now tx) ∧
        ∀ t, self.arrival (.add now tx) = some t →
          (self.rest (.add now tx) t.fromAddress).arrive (·.number) t = none := by
    intro hnone
    refine ⟨H, rfl, (rest_of_arrival_none hnone).symm, fun t ht => ?_⟩
    rw [hnone] at ht
    cases ht
  rw [addTransaction, sat_bind, sat_checked]
  cases hpoo : PooledTransaction.new now tx with
  | error p => trivial
  | ok t =>
    dsimp only
    rw [sat_bind, sat_read]
    split_ifs with hold hche
    · exact hear (by rw [arrival, hpoo]; exact if_neg fun h => h.1 hold)
    · exact hear (by rw [arrival, hpoo]; exact if_neg fun h => h.2.1 hche)
    · rw [sat_bind]
      refine (makeRoom_spec H hold).mono ?_ ?_ (fun _ => id)
      · rintro - room ⟨hcfg, hroom, hcon, hnew, hcard, hlane⟩
        have harr : self.arrival (.add now tx) = some t := by
          rw [arrival, hpoo]
          exact if_pos ⟨hold, hche, hroom⟩
        have hrest : self.rest (.add now tx) = room.lane := by
          funext addr
          rw [hlane]
          refine congrArg (retain · _) (funext fun t' => ?_)
          rw [removes, harr]
          rfl
        rw [sat_bind]
        refine (addToPool_spec hnew (mt (hcon.priced _).mp hnew)).mono ?_ ?_ (fun _ => id)
        · rintro - pool ⟨hcfg', lane, harrive, hidx⟩
          refine ⟨⟨?_, ?_⟩, hcfg'.trans hcfg, t, lane, harr, rfl, hrest ▸ harrive, ?_⟩
          · change pool.index.Consistent
            rw [hidx]
            exact hcon.put hnew (perm_of_arrive harrive)
          · change pool.all.keys.card ≤ pool.config.maxSize
            rw [all_of_index hidx, hcfg', hcfg]
            exact le_trans HashMap.card_keys_insert_le hcard
          · rw [hrest]
            exact lane_of_index hidx
        · rintro e pool ⟨hcfg', -, harrive, hidx⟩
          refine ⟨⟨hidx ▸ hcon, ?_⟩, hcfg'.trans hcfg, ?_, fun t' ht' => ?_⟩
          · rw [all_of_index hidx, hcfg', hcfg]
            exact le_of_lt hcard
          · rw [hrest]
            exact lane_of_index hidx
          · obtain rfl := Option.some.inj (harr.symm.trans ht')
            exact hrest ▸ harrive
      · rintro e pool ⟨rfl, hroom⟩
        exact hear (by rw [arrival, hpoo]; exact if_neg fun h => hroom h.2.2)

theorem Step.spec (h : Step self op pool) (H : self.Sound) :
    pool.Sound ∧ pool.config = self.config ∧ pool.lane = self.after op := by
  cases h with
  | addOk h =>
    obtain ⟨hsnd, hcfg, t, lane, harr, -, harrive, hlane⟩ := (addTransaction_spec H _).of_ok h
    refine ⟨hsnd, hcfg, hlane.trans (funext fun addr => ?_)⟩
    rw [after, harr]
    dsimp only
    split_ifs with haddr
    · rw [haddr, update_self, harrive, Option.getD_some]
    · exact update_of_ne haddr ..
  | addErr h =>
    obtain ⟨hsnd, hcfg, hlane, harrive⟩ := (addTransaction_spec H _).of_err h
    refine ⟨hsnd, hcfg, hlane.trans (funext fun addr => ?_)⟩
    rw [after]
    cases harr : self.arrival (.add _ _) with
    | none => rfl
    | some t =>
      dsimp only
      split_ifs with haddr
      · rw [haddr, harrive t harr, Option.getD_none]
      · rfl
  | remove =>
    refine ⟨H.removeTransaction _, config_removeTransaction _, ?_⟩
    exact lane_of_index (index_removeTransaction H.consistent _)
  | clear =>
    refine ⟨⟨index_new (Q := Q) self.config ▸ Index.consistent_empty, Nat.zero_le _⟩, rfl, ?_⟩
    funext addr
    change _ = (self.lane addr).retain fun _ => false
    rw [retain, filter_false, filter_false]
    rfl
  | maintenance hnd hord =>
    obtain ⟨hsnd, hcfg, hlane⟩ := foldl_removeTransaction H _
    refine ⟨hsnd, hcfg, funext fun addr => (hlane addr).trans ?_⟩
    refine retain_congr fun tx htx => ?_
    have hmem := Finmap.mem_of_lookup_eq_some (H.consistent.listed addr tx htx).2
    rw [removes]
    simp [(hord tx.hash).mpr hmem]

end

end TransactionPool

end EthereumRust.Txpool
