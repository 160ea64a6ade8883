import EthereumRust.Core.Sender
import EthereumRust.Lib.PriorityQueue

/-!
# The transaction pool (`crates/txpool`)

The pool keeps each transaction in four places: in the map of all transactions, in the price heap,
and in the pending or the queued list of its sender. The price heap is a `PriorityQueue` of the
crate of that name. Calls are made one at a time, so the locks are left out. An `Instant` and a
`Duration` are numbers of nanoseconds, and a call is given the time at which it is made. `events` is
what has been sent to the subscribers.
-/

namespace EthereumRust.Txpool
open Rust Method EthereumRust.Core

inductive TxPoolError where
  | alreadyExists
  | nonceTooLow
  | gasPriceTooLow
  | poolFull
  | invalidTransaction (message : String)
  | insufficientBalance
  | gasLimitExceeded
  deriving DecidableEq, Repr

structure TxPoolConfig where
  maxSize : Nat
  priceLimit : U256
  /-- In percent. No function reads it. -/
  priceBump : UInt64
  lifetime : Nat
  deriving DecidableEq

def TxPoolConfig.default : TxPoolConfig where
  maxSize := 4096
  priceLimit := 1000000000
  priceBump := 10
  lifetime := 3 * 60 * 60 * 1000000000

structure PooledTransaction where
  tx : Transaction
  hash : H256
  gasPrice : U256
  fromAddress : Address
  timestamp : Nat
  deriving DecidableEq

def PooledTransaction.new [Crypto] [Recovery] (now : Nat) (tx : Transaction) :
    Checked PooledTransaction := do
  let fromAddress ← tx.fromAddress
  return { tx, hash := tx.hash, gasPrice := tx.gasPrice, fromAddress, timestamp := now }

structure TxPriority where
  price : U256
  deriving DecidableEq

theorem TxPriority.toNat_injective : Function.Injective fun p : TxPriority => p.price.toNat := by
  rintro ⟨p⟩ ⟨q⟩ h
  exact congrArg TxPriority.mk (BitVec.eq_of_toNat_eq h)

instance : LinearOrder TxPriority := LinearOrder.lift' _ TxPriority.toNat_injective

inductive TxPoolEvent where
  | newTransaction (hash : H256)
  | removed (hash : H256)
  | promoted (hash : H256)
  deriving DecidableEq

abbrev Lists := HashMap Address (List PooledTransaction)

structure TransactionPool (Q : Type) where
  config : TxPoolConfig
  pending : Lists
  queued : Lists
  all : HashMap H256 PooledTransaction
  priceHeap : Q
  events : List TxPoolEvent

def Lists.extend (lists : Lists) (address : Address) (txs : List PooledTransaction) : Lists :=
  lists.insert address ((lists.lookup address).getD [] ++ txs)

def Lists.retain (lists : Lists) (address : Address) (hash : H256) : Lists :=
  match lists.lookup address with
  | some txs => lists.insert address (txs.filter (·.hash != hash))
  | none => lists

/-- The closure of `retain` in `promote_queued`, run over the list: the transactions that stay, and
those that are promoted. -/
def promotable (expectedNonce : U256) :
    List PooledTransaction → List PooledTransaction →
      Checked (List PooledTransaction × List PooledTransaction)
  | [], promoted => .ok ([], promoted)
  | tx :: txs, promoted => do
    let nonce ← U256.add expectedNonce (U256.ofUsize promoted.length)
    if tx.tx.nonce = nonce then promotable expectedNonce txs (promoted ++ [tx])
    else
      let (kept, promoted) ← promotable expectedNonce txs promoted
      return (tx :: kept, promoted)

namespace TransactionPool

def getNextNonce (self : TransactionPool Q) (address : Address) : Checked U256 :=
  match ((self.pending.lookup address).getD []).getLast? with
  | some lastTx => U256.add lastTx.tx.nonce 1
  | none => .ok 0

def send (self : TransactionPool Q) (event : TxPoolEvent) : TransactionPool Q :=
  { self with events := self.events ++ [event] }

def removeFromLists (self : TransactionPool Q) (tx : PooledTransaction) : TransactionPool Q :=
  { self with
    pending := self.pending.retain tx.fromAddress tx.hash
    queued := self.queued.retain tx.fromAddress tx.hash }

def promoteQueued (address : Address) : Method (TransactionPool Q) TxPoolError Unit := do
  let self ← read id
  let expectedNonce ← self.getNextNonce address
  match self.queued.lookup address with
  | none => return ()
  | some txs =>
    let (kept, promoted) ← promotable expectedNonce txs []
    update fun self => { self with queued := self.queued.insert address kept }
    if promoted.isEmpty then return ()
    else
      update fun self => { self with
        pending := self.pending.extend address promoted
        events := self.events ++ promoted.map (.promoted ·.hash) }

section
variable [PriorityQueue Q H256 TxPriority]

def new (config : TxPoolConfig) : TransactionPool Q where
  config
  pending := ∅
  queued := ∅
  all := ∅
  priceHeap := PriorityQueue.empty
  events := []

/-- `peek` shows an entry of greatest priority, the transaction with the highest gas price. -/
def evictTransaction (self : TransactionPool Q) (newTx : PooledTransaction) :
    Bool × TransactionPool Q :=
  match PriorityQueue.peek self.priceHeap with
  | none => (false, self)
  | some (hash, priority) =>
    if priority.price < newTx.gasPrice then
      let self := { self with priceHeap := PriorityQueue.remove self.priceHeap hash }
      match self.all.lookup hash with
      | some oldTx =>
        let self := { self with all := self.all.erase hash }
        (true, (self.removeFromLists oldTx).send (.removed hash))
      | none => (false, self)
    else (false, self)

def addToPool (tx : PooledTransaction) : Method (TransactionPool Q) TxPoolError Unit := do
  let self ← read id
  let expectedNonce ← self.getNextNonce tx.fromAddress
  update fun self => { self with
    all := self.all.insert tx.hash tx
    priceHeap := PriorityQueue.push self.priceHeap tx.hash ⟨tx.gasPrice⟩ }
  if tx.tx.nonce = expectedNonce then
    update fun self => { self with pending := self.pending.extend tx.fromAddress [tx] }
    promoteQueued tx.fromAddress
  else if expectedNonce < tx.tx.nonce then
    update fun self => { self with queued := self.queued.extend tx.fromAddress [tx] }
  else
    update fun self => { self with
      all := self.all.erase tx.hash
      priceHeap := PriorityQueue.remove self.priceHeap tx.hash }
    fail .nonceTooLow

def makeRoom (tx : PooledTransaction) : Method (TransactionPool Q) TxPoolError Unit := do
  let self ← read id
  if self.config.maxSize ≤ self.all.keys.card then
    let (evicted, self) := self.evictTransaction tx
    update fun _ => self
    if evicted then return () else fail .poolFull
  else return ()

def addTransaction [Crypto] [Recovery] (now : Nat) (tx : Transaction) :
    Method (TransactionPool Q) TxPoolError H256 := do
  let pooled ← PooledTransaction.new now tx
  let self ← read id
  if pooled.hash ∈ self.all then fail .alreadyExists
  else if pooled.gasPrice < self.config.priceLimit then fail .gasPriceTooLow
  else
    makeRoom pooled
    addToPool pooled
    update (send · (.newTransaction pooled.hash))
    return pooled.hash

def removeTransaction (self : TransactionPool Q) (hash : H256) :
    Option PooledTransaction × TransactionPool Q :=
  match self.all.lookup hash with
  | some tx =>
    let self := { self with
      all := self.all.erase hash
      priceHeap := PriorityQueue.remove self.priceHeap hash }
    (some tx, (self.removeFromLists tx).send (.removed hash))
  | none => (none, self)

def clear (self : TransactionPool Q) : TransactionPool Q :=
  { self with pending := ∅, queued := ∅, all := ∅, priceHeap := PriorityQueue.empty }

def expired (self : TransactionPool Q) (now : Nat) (hash : H256) : Bool :=
  match self.all.lookup hash with
  | some tx => self.config.lifetime < now - tx.timestamp
  | none => false

/-- One round of `run_maintenance`. `order` lists the keys of `all` as the hash map iterates over
them. -/
def runMaintenance (self : TransactionPool Q) (now : Nat) (order : List H256) : TransactionPool Q :=
  (order.filter (self.expired now)).foldl (fun self hash => (self.removeTransaction hash).2) self

end

end TransactionPool

end EthereumRust.Txpool
