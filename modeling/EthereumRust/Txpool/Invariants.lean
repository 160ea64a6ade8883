import EthereumRust.Txpool.Step

/-!
# Invariants of the pool

The indexes of a pool agree after every sequence of completed calls. The other properties hold in
runs whose calls meet a condition.
-/

namespace EthereumRust.Txpool

open Rust Method EthereumRust.Core List Lane

namespace TransactionPool

section
variable {m : TransactionPool Q}

/-- No queued transaction has the next nonce of its sender. -/
def Settled (self : TransactionPool Q) : Prop :=
  ∀ address, ∀ tx ∈ (self.lane address).queued, self.getNextNonce address ≠ .ok tx.tx.nonce

theorem settled_iff : m.Settled ↔ ∀ addr, ¬(m.lane addr).Ready (·.number) := by
  refine forall_congr' fun addr => ⟨fun h hrdy => ?_, fun h tx htx hnon => ?_⟩
  · obtain ⟨tx, htx, hnext⟩ := mem_map.mp hrdy
    exact h tx htx (getNextNonce_eq_ok.mpr hnext)
  · exact h (mem_map.mpr ⟨tx, htx, getNextNonce_eq_ok.mp hnon⟩)

end

section
variable {Q : Type} [PriorityQueue Q H256 TxPriority] [Crypto] [Recovery]
  {m pool : TransactionPool Q} {op : Op} {cfg : TxPoolConfig}
  {cond : TransactionPool Q → Op → Prop}

/-- A run of completed calls, each of which meets a condition on the state before it. -/
def Reaches (cond : TransactionPool Q → Op → Prop) (config : TxPoolConfig)
    (pool : TransactionPool Q) : Prop :=
  Relation.ReflTransGen (fun s s' => ∃ op, cond s op ∧ Step s op s') (new config) pool

theorem Reaches.induct (inv : TransactionPool Q → Prop) (h : Reaches cond cfg pool)
    (hnew : inv (new cfg))
    (hstep : ∀ s op s', s.Sound → inv s → cond s op → Step s op s' → inv s') :
    pool.Sound ∧ inv pool := by
  induction h with
  | refl => exact ⟨sound_new cfg, hnew⟩
  | tail _ hlast ih =>
    obtain ⟨op, hcond, hlast⟩ := hlast
    exact ⟨(hlast.spec ih.1).1, hstep _ op _ ih.1 ih.2 hcond hlast⟩

theorem Step.lane_cases (h : Step m op pool) (H : m.Sound) (addr : Address) :
    pool.lane addr = m.rest op addr ∨
      ∃ tx, m.arrival op = some tx ∧ addr = tx.fromAddress ∧
        (m.rest op addr).arrive (·.number) tx = some (pool.lane addr) := by
  rw [(h.spec H).2.2, after]
  cases harr : m.arrival op with
  | none => exact .inl rfl
  | some tx =>
    dsimp only
    split_ifs with haddr
    · cases harrive : (m.rest op addr).arrive (·.number) tx with
      | none => exact .inl rfl
      | some lane => exact .inr ⟨tx, rfl, haddr, harrive⟩
    · exact .inl rfl

theorem Step.lane_arrival (h : Step m op pool) (H : m.Sound)
    {lane : Lane PooledTransaction} (harr : m.arrival op = some tx)
    (harrive : (m.rest op tx.fromAddress).arrive (·.number) tx = some lane) :
    pool.lane tx.fromAddress = lane := by
  rw [(h.spec H).2.2, after, harr]
  dsimp only
  rw [if_pos rfl, harrive, Option.getD_some]

theorem Step.rising (h : Step m op pool) (H : m.Sound)
    (hris : ∀ addr, (m.lane addr).Rising (·.number)) (addr : Address) :
    (pool.lane addr).Rising (·.number) := by
  rcases h.lane_cases H addr with hlane | ⟨tx, -, -, harr⟩
  · rw [hlane]
    exact (hris addr).retain
  · exact (hris addr).retain.arrive harr

/-- After every run the keys of the map, of the heap and of the lists are the same, a transaction
stands once in one list of its sender, and the pool is no larger than configured. -/
theorem indexes_agree (h : Reaches (fun _ _ => True) cfg pool) :
    (∀ hash, hash ∈ pool.all ↔ hash ∈ PriorityQueue.content pool.priceHeap) ∧
    (∀ hash, hash ∈ pool.all ↔ ∃ addr, hash ∈ (pool.lane addr).items.map (·.hash)) ∧
    (∀ hash tx, pool.all.lookup hash = some tx → ∀ addr,
      ((pool.lane addr).items.map (·.hash)).count hash =
        if addr = tx.fromAddress then 1 else 0) ∧
    (∀ addr, ∀ tx ∈ (pool.lane addr).items, pool.all.lookup tx.hash = some tx) ∧
    pool.all.keys.card ≤ cfg.maxSize := by
  obtain ⟨hsnd, hcfg⟩ := h.induct (fun s => s.config = cfg) rfl
    fun s op s' hsnd hcfg _ hstep => (hstep.spec hsnd).2.1.trans hcfg
  have H := hsnd.consistent
  have hlis : ∀ addr hash tx, pool.all.lookup hash = some tx →
      hash ∈ (pool.lane addr).items.map (·.hash) → addr = tx.fromAddress := by
    intro addr hash tx hget hmem
    obtain ⟨tx', htx', rfl⟩ := mem_map.mp hmem
    obtain ⟨hfrom, hget'⟩ := H.listed addr tx' htx'
    obtain rfl := Option.some.inj (hget.symm.trans hget')
    exact hfrom.symm
  refine ⟨fun hash => (H.priced hash).symm, fun hash => ⟨fun hmem => ?_, ?_⟩,
    fun hash tx hget addr => ?_, fun addr tx htx => (H.listed addr tx htx).2,
    hcfg ▸ hsnd.size⟩
  · obtain ⟨tx, hget⟩ := Finmap.mem_iff.mp hmem
    obtain ⟨rfl, htx⟩ := H.keyed hash tx hget
    exact ⟨tx.fromAddress, mem_map_of_mem htx⟩
  · rintro ⟨addr, hmem⟩
    obtain ⟨tx, htx, rfl⟩ := mem_map.mp hmem
    exact Finmap.mem_of_lookup_eq_some (H.listed addr tx htx).2
  · split_ifs with haddr
    · obtain ⟨rfl, htx⟩ := H.keyed hash tx hget
      rw [haddr]
      exact count_eq_one_of_mem (H.once _) (mem_map_of_mem htx)
    · exact count_eq_zero.mpr fun hmem => haddr (hlis addr hash tx hget hmem)

def perform (self : TransactionPool Q) : Op → Option (TransactionPool Q)
  | .add now tx =>
    match addTransaction now tx self with
    | .ok _ pool => some pool
    | .err _ pool => some pool
    | .panic _ => none
  | .remove hash => some (self.removeTransaction hash).2
  | .clear => some self.clear
  | .maintenance _ => none

theorem step_of_perform (h : m.perform op = some pool) : Step m op pool := by
  cases op with
  | add now tx =>
    rw [perform] at h
    split at h
    · obtain rfl := Option.some.inj h
      exact .addOk ‹_›
    · obtain rfl := Option.some.inj h
      exact .addErr ‹_›
    · cases h
  | remove hash =>
    obtain rfl := Option.some.inj h
    exact .remove
  | clear =>
    obtain rfl := Option.some.inj h
    exact .clear
  | maintenance now => cases h

/-- The pool after calls that all pass the check. -/
def run (check : TransactionPool Q → Op → Bool) (self : TransactionPool Q) :
    List Op → Option (TransactionPool Q)
  | [] => some self
  | op :: ops =>
    if check self op then (self.perform op).bind fun pool => run check pool ops else none

theorem reaches_of_run {β : Type} {b : β} (check : TransactionPool Q → Op → Bool)
    (hche : ∀ {s op}, check s op = true → cond s op) (cfg : TxPoolConfig)
    (observe : TransactionPool Q → β) (ops : List Op)
    (h : (run check (new cfg) ops).map observe = some b) :
    ∃ pool, Reaches cond cfg pool ∧ observe pool = b := by
  have hrun : ∀ (ops : List Op) (s s' : TransactionPool Q), Reaches cond cfg s →
      run check s ops = some s' → Reaches cond cfg s' := by
    intro ops
    induction ops with
    | nil =>
      intro s s' hs h
      cases h
      exact hs
    | cons op ops ih =>
      intro s s' hs h
      rw [run] at h
      split_ifs at h with hop
      obtain ⟨s₁, hs₁, h⟩ := Option.bind_eq_some_iff.mp h
      exact ih s₁ s' (hs.tail ⟨op, hche hop, step_of_perform hs₁⟩) h
  obtain ⟨pool, hpool, hobs⟩ := Option.map_eq_some_iff.mp h
  exact ⟨pool, hrun ops _ _ .refl hpool, hobs⟩

theorem reaches_of_perform {β : Type} {b : β} (cfg : TxPoolConfig) (observe : TransactionPool Q → β)
    (ops : List Op) (h : (run (fun _ _ => true) (new cfg) ops).map observe = some b) :
    ∃ pool, Reaches (fun _ _ => True) cfg pool ∧ observe pool = b :=
  reaches_of_run _ (fun _ => trivial) cfg observe ops h

end

section
open Sized Unrecovered

abbrev ListPool := TransactionPool (AList fun _ : H256 => TxPriority)

def offer (nonce size price : Nat) : Transaction :=
  .eip1559 {
    chainId := 1
    nonce := .ofNat 256 nonce
    maxPriorityFeePerGas := 1
    maxFeePerGas := .ofNat 256 price
    gasLimit := 21000
    toAddress := some Address.zero
    value := 1
    data := List.replicate size 0
    accessList := []
    yParity := false
    r := 0
    s := 0 }

def sample (nonce size : Nat) : Transaction := offer nonce size 1000000000

def nonces (self : ListPool) : List Nat × List Nat :=
  ((self.lane Address.zero).pending.map (·.number), (self.lane Address.zero).queued.map (·.number))

theorem indexes_agree_sample : ∃ pool : ListPool,
    pool.nonces = ([0, 1, 2], []) ∧
      ∀ hash, hash ∈ pool.all ↔ ∃ addr, hash ∈ (pool.lane addr).items.map (·.hash) := by
  obtain ⟨pool, hrch, hnons⟩ := reaches_of_perform .default nonces
    [.add 0 (sample 0 0), .add 0 (sample 2 2), .add 0 (sample 1 1)] (b := ([0, 1, 2], []))
    (by decide +kernel)
  exact ⟨pool, hnons, (indexes_agree hrch).2.1⟩

end

section
variable {Q : Type} [PriorityQueue Q H256 TxPriority] [Crypto] [Recovery]
  {m pool : TransactionPool Q} {op : Op} {cfg : TxPoolConfig}

/-- What the call removes leaves no hole in a pending list. -/
def Connected (self : TransactionPool Q) (op : Op) : Prop :=
  ∀ address, (self.rest op address).pending <:+: (self.lane address).pending

theorem Step.consecutive_iff (h : Step m op pool) (H : m.Sound)
    (hlin : ∀ addr, Lane.Consecutive (·.number) (m.lane addr).pending) :
    (∀ addr, Lane.Consecutive (·.number) (pool.lane addr).pending) ↔ m.Connected op := by
  refine forall_congr' fun addr => ?_
  have hiff := consecutive_filter_iff (p := fun tx => !m.removes op tx) (hlin addr)
  rcases h.lane_cases H addr with hlane | ⟨tx, -, -, harr⟩
  · rw [hlane]
    exact hiff
  · exact (consecutive_arrive_iff harr).trans hiff

/-- In every run whose calls leave connected parts the pending nonces are consecutive, and the first
call that does not makes a gap. -/
theorem pending_consecutive (h : Reaches Connected cfg pool) :
    (∀ addr, Lane.Consecutive (·.number) (pool.lane addr).pending) ∧
      ∀ op pool', Step pool op pool' →
        ((∀ addr, Lane.Consecutive (·.number) (pool'.lane addr).pending) ↔
          pool.Connected op) := by
  obtain ⟨hsnd, hlin⟩ := h.induct
    (fun s => ∀ addr, Lane.Consecutive (·.number) (s.lane addr).pending) (fun _ => .nil)
    fun s op s' hsnd hlin hcon hstep =>
      (hstep.consecutive_iff hsnd hlin).mpr hcon
  exact ⟨hlin, fun op pool' hstep => hstep.consecutive_iff hsnd hlin⟩

end

section
open Sized Unrecovered

def connects (self : ListPool) (op : Op) : Bool :=
  decide (self.pending.keys ⊆ {Address.zero} ∧
    (self.rest op Address.zero).pending <:+: (self.lane Address.zero).pending)

theorem connected_of_connects {m : ListPool} (h : m.connects op = true) :
    m.Connected op := by
  obtain ⟨hkeys, hzero⟩ := of_decide_eq_true h
  intro addr
  by_cases haddr : addr = Address.zero
  · rwa [haddr]
  · have hnone : m.pending.lookup addr = none := by
      refine Finmap.lookup_eq_none.mpr fun hmem => haddr ?_
      exact Finset.mem_singleton.mp (hkeys (Finmap.mem_keys.mpr hmem))
    rw [rest, lane, hnone]
    exact infix_rfl

/-- Three pending transactions, the last one removed, and two that follow the others. -/
theorem pending_consecutive_sample : ∃ pool : ListPool, pool.nonces = ([0, 1, 2, 3], []) ∧
    ∀ addr, Lane.Consecutive (·.number) (pool.lane addr).pending := by
  obtain ⟨pool, hrch, hnons⟩ := reaches_of_run connects connected_of_connects .default nonces
    [.add 0 (sample 0 0), .add 0 (sample 1 1), .add 0 (sample 2 2), .remove (sample 2 2).hash,
      .add 0 (sample 3 3), .add 0 (sample 2 4)] (b := ([0, 1, 2, 3], [])) (by decide +kernel)
  exact ⟨pool, hnons, (pending_consecutive hrch).1⟩

/-- A pending list with nonces 0 and 2. -/
theorem pending_gap : ∃ pool : ListPool,
    Reaches (fun _ _ => True) .default pool ∧ pool.nonces = ([0, 2], []) ∧
      ¬∀ addr, Lane.Consecutive (·.number) (pool.lane addr).pending := by
  obtain ⟨pool, hrch, hnons⟩ := reaches_of_perform .default nonces
    [.add 0 (sample 0 0), .add 0 (sample 1 1), .add 0 (sample 2 2), .remove (sample 1 1).hash]
    (b := ([0, 2], [])) (by decide +kernel)
  refine ⟨pool, hrch, hnons, fun hlin => ?_⟩
  have hline : (nonces pool).1.IsChain fun x y => y = x + 1 := hlin Address.zero
  rw [hnons] at hline
  revert hline
  decide

end

section
variable [PriorityQueue Q H256 TxPriority] [Crypto] [Recovery]
  {m pool : TransactionPool Q} {cfg : TxPoolConfig}

/-- An arrival at the next nonce finds the nonces that follow it queued in order. -/
def Ordered (self : TransactionPool Q) (op : Op) : Prop :=
  ∀ tx, self.arrival op = some tx →
    tx.number = (self.rest op tx.fromAddress).next (·.number) →
      Lane.InOrder (·.number) tx.number (self.rest op tx.fromAddress).queued

/-- An arrival that is queued has a nonce that the queue does not have. -/
def QueuesFresh (self : TransactionPool Q) (op : Op) : Prop :=
  ∀ tx, self.arrival op = some tx →
    (self.rest op tx.fromAddress).next (·.number) < tx.number →
      tx.number ∉ (self.rest op tx.fromAddress).queued.map (·.number)

structure Waiting (pool : TransactionPool Q) : Prop where
  rising : ∀ address, (pool.lane address).Rising (·.number)
  ahead : ∀ address, (pool.lane address).Ahead (·.number)

theorem Waiting.rest (hwt : m.Waiting) (op : Op) (addr : Address) :
    (m.rest op addr).Ahead (·.number) :=
  (hwt.ahead addr).retain (hwt.rising addr)

theorem Waiting.step (hwt : m.Waiting) (H : m.Sound) (h : Step m op pool)
    (hord : m.Ordered op) (hfr : m.QueuesFresh op) : pool.Waiting := by
  refine ⟨h.rising H hwt.rising, fun addr => ?_⟩
  rcases h.lane_cases H addr with hlane | ⟨tx, harr, rfl, harrive⟩
  · rw [hlane]
    exact hwt.rest op addr
  · exact (hwt.rest op _).arrive harrive (hfr tx harr) (hord tx harr)

theorem Waiting.settled_iff (hwt : m.Waiting) (H : m.Sound) (h : Step m op pool) :
    pool.Settled ↔ m.Ordered op := by
  rw [TransactionPool.settled_iff]
  constructor
  · intro hrdy tx harr heq
    have hsome : ((m.rest op tx.fromAddress).arrive (·.number) tx).isSome :=
      arrive_isSome_iff.mpr (le_of_eq heq.symm)
    obtain ⟨lane, harrive⟩ := Option.isSome_iff_exists.mp hsome
    have hlane := h.lane_arrival H harr harrive
    exact ((hwt.rest op _).not_ready_iff harrive).mp (hlane ▸ hrdy tx.fromAddress) heq
  · intro hord addr
    rcases h.lane_cases H addr with hlane | ⟨tx, harr, rfl, harrive⟩
    · rw [hlane]
      exact (hwt.rest op addr).not_ready
    · exact ((hwt.rest op _).not_ready_iff harrive).mpr (hord tx harr)

/-- In every run in which no queued nonce is queued again and the transactions that can follow an
arrival stand in order, no queued transaction is executable; the first call that finds them out of
order leaves one behind. -/
theorem queued_not_executable (h : Reaches (fun s op => s.Ordered op ∧ s.QueuesFresh op) cfg pool) :
    pool.Settled ∧ ∀ op pool', Step pool op pool' → (pool'.Settled ↔ pool.Ordered op) := by
  obtain ⟨hsnd, hwt⟩ :=
    h.induct Waiting ⟨fun _ => rising_nil, fun _ => ⟨forall_mem_nil _, .nil⟩⟩
    fun s op s' hsnd hwt hcond hstep => hwt.step hsnd hstep hcond.1 hcond.2
  refine ⟨settled_iff.mpr fun addr => (hwt.ahead addr).not_ready, ?_⟩
  exact fun op pool' hstep => hwt.settled_iff hsnd hstep

end

section
open Sized Unrecovered

def queuesInOrder (self : ListPool) (op : Op) : Bool :=
  decide (∀ tx ∈ self.arrival op,
    tx.number ∉ (self.rest op tx.fromAddress).queued.map (·.number) ∧ ∃ m ∈ List.range 3,
      (List.range' (tx.number + 1) m).Sublist
        ((self.rest op tx.fromAddress).queued.map (·.number)) ∧
        tx.number + 1 + m ∉ (self.rest op tx.fromAddress).queued.map (·.number))

theorem of_queuesInOrder {self : ListPool} (h : self.queuesInOrder op = true) :
    self.Ordered op ∧ self.QueuesFresh op := by
  have hall := of_decide_eq_true h
  refine ⟨fun tx harr _ => ?_, fun tx harr _ => (hall tx harr).1⟩
  obtain ⟨m, -, hm⟩ := (hall tx harr).2
  exact ⟨m, hm⟩

/-- The nonces 1 and 2 wait for 0 and follow it, 4 still waits for 3. -/
theorem queued_not_executable_sample : ∃ pool : ListPool,
    pool.nonces = ([0, 1, 2], [4]) ∧ pool.Settled := by
  obtain ⟨pool, hrch, hnons⟩ := reaches_of_run queuesInOrder of_queuesInOrder .default nonces
    [.add 0 (sample 1 1), .add 0 (sample 2 2), .add 0 (sample 4 4), .add 0 (sample 0 0)]
    (b := ([0, 1, 2], [4])) (by decide +kernel)
  exact ⟨pool, hnons, (queued_not_executable hrch).1⟩

/-- Two transactions are queued out of order, and the pass reaches only the second of them. -/
theorem executable_left_behind : ∃ pool : ListPool,
    Reaches (fun _ _ => True) .default pool ∧ pool.nonces = ([0, 1, 2], [3]) ∧
      ∃ tx ∈ (pool.lane Address.zero).queued, pool.getNextNonce Address.zero = .ok tx.tx.nonce := by
  obtain ⟨pool, hrch, hpool⟩ := reaches_of_perform .default
    (fun pool => (nonces pool, (pool.lane Address.zero).queued.any
      fun tx => pool.getNextNonce Address.zero = .ok tx.tx.nonce))
    [.add 0 (sample 0 0), .add 0 (sample 3 3), .add 0 (sample 2 2), .add 0 (sample 1 1)]
    (b := (([0, 1, 2], [3]), true)) (by decide +kernel)
  obtain ⟨hnons, hany⟩ := Prod.mk.inj hpool
  obtain ⟨tx, htx, hnext⟩ := any_eq_true.mp hany
  exact ⟨pool, hrch, hnons, tx, htx, of_decide_eq_true hnext⟩

end

section
variable [PriorityQueue Q H256 TxPriority] [Crypto] [Recovery]
  {m pool : TransactionPool Q} {cfg : TxPoolConfig}

def Outbids (config : TxPoolConfig) (tx old : PooledTransaction) : Prop :=
  old.gasPrice.toNat * (100 + config.priceBump.toNat) ≤ tx.gasPrice.toNat * 100

/-- A transaction that takes the nonce of another outbids it and removes it. -/
def Replaces (self pool : TransactionPool Q) : Prop :=
  ∀ address, ∀ tx ∈ (pool.lane address).items, tx ∉ (self.lane address).items →
    ∀ old ∈ (self.lane address).items, old.number = tx.number →
      old ∉ (pool.lane address).items ∧ Outbids self.config tx old

/-- A transaction arrives with a nonce that is not queued, and a transaction with its sender and
nonce that is evicted for it is outbid. -/
def ArrivesFresh (self : TransactionPool Q) (op : Op) : Prop :=
  ∀ tx, self.arrival op = some tx → (self.rest op tx.fromAddress).next (·.number) ≤ tx.number →
    tx.number ∉ (self.rest op tx.fromAddress).queued.map (·.number) ∧
      ∀ old ∈ (self.lane tx.fromAddress).items, self.removes op old = true →
        old.number = tx.number → Outbids self.config tx old

structure Unique (pool : TransactionPool Q) : Prop where
  rising : ∀ address, (pool.lane address).Rising (·.number)
  distinct : ∀ address, (pool.lane address).Distinct (·.number)

theorem not_mem_of_arrival (H : m.Sound)
    (h : m.arrival op = some tx) : tx ∉ (m.lane addr).items := by
  intro hmem
  have hpoo := Finmap.mem_of_lookup_eq_some (H.consistent.listed addr tx hmem).2
  cases op with
  | add now t =>
    rw [arrival] at h
    split at h
    · split_ifs at h with hnew
      cases h
      exact hnew.1 hpoo
    · cases h
  | _ => cases h

theorem mem_rest :
    tx ∈ (m.rest op addr).items ↔ tx ∈ (m.lane addr).items ∧ m.removes op tx = false := by
  rw [rest, items_retain, mem_filter, Bool.not_eq_true']

theorem Unique.rising_rest (huni : m.Unique) : (m.rest op addr).Rising (·.number) :=
  (huni.rising addr).retain

theorem Unique.distinct_step (huni : m.Unique) (H : m.Sound) (h : Step m op pool)
    (hfr : m.ArrivesFresh op) (addr : Address) : (pool.lane addr).Distinct (·.number) := by
  have hrest : (m.rest op addr).Distinct (·.number) := (huni.distinct addr).retain
  rcases h.lane_cases H addr with hlane | ⟨tx, harr, rfl, harrive⟩
  · rw [hlane]
    exact hrest
  · have hnext := next_le_of_arrive harrive
    exact (huni.rising_rest.distinct_iff harrive).mpr ⟨hrest, (hfr tx harr hnext).1⟩

theorem Unique.replaces_step (huni : m.Unique) (H : m.Sound) (h : Step m op pool)
    (hfr : m.ArrivesFresh op) : m.Replaces pool := by
  intro addr tx htx hnew old hold hnum
  rcases h.lane_cases H addr with hlane | ⟨t, harr, rfl, harrive⟩
  · rw [hlane] at htx
    exact absurd (mem_rest.mp htx).1 hnew
  · have hperm := perm_of_arrive harrive
    have hne : old ≠ t := fun heq => not_mem_of_arrival H harr (heq ▸ hold)
    rcases mem_cons.mp (hperm.mem_iff.mp htx) with rfl | htx
    · have hnext := next_le_of_arrive harrive
      obtain ⟨hq, hout⟩ := hfr tx harr hnext
      -- a transaction that stays has another nonce
      have hrem : m.removes op old = true := by
        by_contra hsta
        have hmem : old ∈ (m.rest op tx.fromAddress).items :=
          mem_rest.mpr ⟨hold, Bool.eq_false_iff.mpr hsta⟩
        rcases mem_append.mp hmem with hmem | hmem
        · have := huni.rising_rest.lt_next old hmem
          omega
        · exact hq (mem_map.mpr ⟨old, hmem, hnum⟩)
      refine ⟨fun hmem => ?_, hout old hold hrem hnum⟩
      rcases mem_cons.mp (hperm.mem_iff.mp hmem) with heq | hmem
      · exact hne heq
      · rw [(mem_rest.mp hmem).2] at hrem
        cases hrem
    · exact absurd (mem_rest.mp htx).1 hnew

theorem Unique.arrivesFresh (huni : m.Unique) (H : m.Sound) (h : Step m op pool)
    (hdis : ∀ addr, (pool.lane addr).Distinct (·.number)) (hrep : m.Replaces pool) :
    m.ArrivesFresh op := by
  intro tx harr hnext
  have hsome := arrive_isSome_iff.mpr hnext
  obtain ⟨lane, harrive⟩ := Option.isSome_iff_exists.mp hsome
  have hlane := h.lane_arrival H harr harrive
  have hiff := huni.rising_rest.distinct_iff harrive
  refine ⟨(hiff.mp (hlane ▸ hdis tx.fromAddress)).2, ?_⟩
  intro old hold hrem hnum
  have hmem : tx ∈ (pool.lane tx.fromAddress).items := by
    rw [hlane]
    exact (perm_of_arrive harrive).mem_iff.mpr mem_cons_self
  exact (hrep _ tx hmem (not_mem_of_arrival H harr) old hold hnum).2

/-- In every run whose transactions arrive with nonces that are not queued, and outbid what they
replace, the nonces of each sender are different, and a second transaction with the same sender and
nonce replaces the first or is rejected; the first call that does not meet the condition breaks
this. -/
theorem nonces_unique (h : Reaches ArrivesFresh cfg pool) :
    (∀ addr, (pool.lane addr).Distinct (·.number)) ∧
      ∀ op pool', Step pool op pool' →
        (((∀ addr, (pool'.lane addr).Distinct (·.number)) ∧ pool.Replaces pool') ↔
          pool.ArrivesFresh op) := by
  obtain ⟨hsnd, huni⟩ := h.induct Unique ⟨fun _ => rising_nil, fun _ => .nil⟩
    fun s op s' hsnd huni hfr hstep =>
      ⟨hstep.rising hsnd huni.rising, huni.distinct_step hsnd hstep hfr⟩
  refine ⟨huni.distinct, fun op pool' hstep => ⟨?_, fun hfr => ⟨?_, ?_⟩⟩⟩
  · exact fun hboth => huni.arrivesFresh hsnd hstep hboth.1 hboth.2
  · exact huni.distinct_step hsnd hstep hfr
  · exact huni.replaces_step hsnd hstep hfr

end

section
open Sized Unrecovered

instance (self : ListPool) (op : Op) : Decidable (self.ArrivesFresh op) :=
  inferInstanceAs (Decidable (∀ tx ∈ self.arrival op,
    (self.rest op tx.fromAddress).next (·.number) ≤ tx.number →
      tx.number ∉ (self.rest op tx.fromAddress).queued.map (·.number) ∧
        ∀ old ∈ (self.lane tx.fromAddress).items, self.removes op old = true →
          old.number = tx.number → old.gasPrice.toNat * (100 + self.config.priceBump.toNat) ≤
            tx.gasPrice.toNat * 100))

/-- Four nonces in any order, and one that is there already. -/
theorem nonces_unique_sample : ∃ pool : ListPool,
    pool.nonces = ([0, 1, 2], [4]) ∧ ∀ addr, (pool.lane addr).Distinct (·.number) := by
  obtain ⟨pool, hrch, hnons⟩ := reaches_of_run (fun s op => decide (s.ArrivesFresh op))
    of_decide_eq_true .default nonces [.add 0 (sample 2 2), .add 0 (sample 0 0),
      .add 0 (sample 4 4), .add 0 (sample 1 1), .add 0 (sample 1 5)]
    (b := ([0, 1, 2], [4])) (by decide +kernel)
  exact ⟨pool, hnons, (nonces_unique hrch).1⟩

/-- A queue with nonce 1 twice. -/
theorem nonce_queued_twice : ∃ pool : ListPool,
    Reaches (fun _ _ => True) .default pool ∧ pool.nonces = ([], [1, 1]) ∧
      ¬(pool.lane Address.zero).Distinct (·.number) := by
  obtain ⟨pool, hrch, hnons⟩ := reaches_of_perform .default nonces
    [.add 0 (sample 1 1), .add 0 (sample 1 2)] (b := ([], [1, 1])) (by decide +kernel)
  refine ⟨pool, hrch, hnons, fun hdis => ?_⟩
  have hnd : ((nonces pool).1 ++ (nonces pool).2).Nodup := by
    rw [nonces, ← map_append]
    exact hdis
  rw [hnons] at hnd
  revert hnd
  decide

end

end TransactionPool

end EthereumRust.Txpool
