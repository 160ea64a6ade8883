import EthereumRust.Verification.Transaction
import EthereumRust.Lib.MapTotal

/-!
# State transitions (`crates/verification/src/state.rs`)

Each transaction takes the gas and the value from its sender, and adds the value to the recipient,
if there is one. A contract creation has none, and its value is lost.

The sender is the same constant address for all transactions, as in the source.
-/

namespace EthereumRust.Verification

open Rust List

structure Account where
  nonce : UInt64
  balance : U256
  deriving DecidableEq

def Account.empty : Account := ⟨0, 0⟩

structure BlockHeader where
  author : Address

structure Block where
  header : BlockHeader
  transactions : List Transaction
  uncles : List BlockHeader

abbrev Accounts := HashMap Address Account

namespace StateVerifier

def simplifiedSender : Address := ⟨List.replicate 20 1, rfl⟩

def recoverSender (_ : Transaction) : Call VerificationError Address := .ok simplifiedSender

def credit (state : Accounts) (address : Address) (amount : U256) : Checked Accounts := do
  let account := (state.lookup address).getD Account.empty
  let balance ← account.balance.add amount
  return state.insert address { account with balance }

def gasCost (tx : Transaction) : Checked U256 := tx.gasLimit.mul (tx.gasPrice.getD 0)

def debit [Build] (account : Account) (tx : Transaction) : Call VerificationError Account := do
  let gasCost ← gasCost tx
  let required ← gasCost.add tx.value
  if account.balance < required then Call.fail (.invalidState "Insufficient balance")
  else
    let rest ← account.balance.sub gasCost
    let balance ← rest.sub tx.value
    let nonce ← plusU64 account.nonce 1
    return { account with balance, nonce }

def applyTransaction [Build] (state : Accounts) (tx : Transaction) :
    Call VerificationError Accounts := do
  let sender ← recoverSender tx
  match state.lookup sender with
  | none => Call.fail (.invalidState "Sender account not found")
  | some account =>
    let account ← debit account tx
    let state := state.insert sender account
    match tx.toAddress with
    | some recipient => credit state recipient tx.value
    -- a contract is not deployed
    | none => return state

def baseReward : U256 := .ofNat 256 2000000000000000000

def rewardUncle (state : Accounts) (uncle : BlockHeader) : Call VerificationError Accounts := do
  let uncleReward ← baseReward.div 8
  credit state uncle.author uncleReward

def applyBlockRewards (state : Accounts) (block : Block) : Call VerificationError Accounts := do
  let state ← credit state block.header.author baseReward
  block.uncles.foldlM rewardUncle state

/-- The state that the verifier computes before it takes the root. -/
def workingState [Build] (preState : Accounts) (block : Block) :
    Call VerificationError Accounts := do
  let state ← block.transactions.foldlM applyTransaction preState
  applyBlockRewards state block

def verifyStateTransition [Build] (preState postState : Accounts) (block : Block) :
    Call VerificationError Unit := do
  let state ← workingState preState block
  if state ≠ postState then Call.fail (.invalidState "State transition mismatch") else .ok ()

def totalBalance (state : Accounts) : Nat := MapTotal.total (·.balance.toNat) state

def gasPaid (tx : Transaction) : Nat := tx.gasLimit.toNat * (tx.gasPrice.getD 0).toNat

def valueLost (tx : Transaction) : Nat := if tx.toAddress = none then tx.value.toNat else 0

/-- What a block mints. -/
def rewards (block : Block) : Nat := 2000000000000000000 + block.uncles.length * 250000000000000000

section
variable {amt : U256}

def balanceOf (state : Accounts) (address : Address) : Nat :=
  ((state.lookup address).getD Account.empty).balance.toNat

theorem totalBalance_insert (state : Accounts) (addr : Address) (acct : Account) :
    totalBalance (state.insert addr acct) + balanceOf state addr =
      totalBalance state + acct.balance.toNat := by
  have hins := MapTotal.total_insert (fun acct : Account => acct.balance.toNat) state
    addr acct
  have hold : ((state.lookup addr).map fun acct : Account => acct.balance.toNat).getD 0 =
      balanceOf state addr := by
    rw [balanceOf]
    cases state.lookup addr <;> rfl
  rwa [hold] at hins

theorem totalBalance_credit (h : credit state addr amt = .ok state') :
    totalBalance state' = totalBalance state + amt.toNat := by
  obtain ⟨balance, hbal, h⟩ := h.of_bind
  obtain rfl := Except.ok.inj h
  have hins := totalBalance_insert state addr
    ⟨((state.lookup addr).getD Account.empty).nonce, balance⟩
  rw [U256.add_eq_ok] at hbal
  change balance.toNat = balanceOf state addr + _ at hbal
  change _ + _ = _ + balance.toNat at hins
  change totalBalance (state.insert addr ⟨_, balance⟩) = _
  omega

theorem balance_debit [Build] (h : debit acct tx = .ok acct') :
    acct'.balance.toNat + gasPaid tx + tx.value.toNat = acct.balance.toNat := by
  obtain ⟨gasCost, hgasC, h⟩ := Call.checked_bind_eq_ok.mp h
  obtain ⟨required, hreq, h⟩ := Call.checked_bind_eq_ok.mp h
  obtain ⟨-, h⟩ := Call.guard_eq_ok.mp h
  obtain ⟨rest, hrest, h⟩ := Call.checked_bind_eq_ok.mp h
  obtain ⟨bal, hbal, h⟩ := Call.checked_bind_eq_ok.mp h
  obtain ⟨nonce, -, h⟩ := Call.checked_bind_eq_ok.mp h
  cases h
  rw [U256.sub_eq_ok] at hrest hbal
  have hgas : gasCost.toNat = gasPaid tx := U256.mul_eq_ok.mp hgasC
  change bal.toNat + _ + _ = _
  omega

theorem totalBalance_applyTransaction [Build] (h : applyTransaction state tx = .ok state') :
    totalBalance state' + gasPaid tx + valueLost tx = totalBalance state := by
  obtain ⟨sender, -, h⟩ := h.of_bind
  cases hsen : state.lookup sender with
  | none =>
    rw [hsen] at h
    cases h
  | some acct =>
    rw [hsen] at h
    obtain ⟨acct', hdeb, h⟩ := h.of_bind
    have hbal := balance_debit hdeb
    have hins := totalBalance_insert state sender acct'
    have hold : balanceOf state sender = acct.balance.toNat := by
      rw [balanceOf, hsen]
      rfl
    cases hrec : tx.toAddress with
    | none =>
      have hlost : valueLost tx = tx.value.toNat := if_pos hrec
      simp only [hrec] at h
      obtain rfl := Except.ok.inj h
      omega
    | some recipient =>
      have hlost : valueLost tx = 0 := if_neg (by simp [hrec])
      simp only [hrec] at h
      have hcre := totalBalance_credit (Call.liftM_eq_ok.mp h)
      omega

theorem totalBalance_foldlM [Build] {txs : List Transaction}
    (h : txs.foldlM applyTransaction state = .ok state') :
    totalBalance state' + (txs.map gasPaid).sum + (txs.map valueLost).sum = totalBalance state := by
  induction txs generalizing state with
  | nil =>
    obtain rfl := Except.ok.inj h
    simp
  | cons tx txs ih =>
    rw [foldlM_cons] at h
    obtain ⟨next, hnext, h⟩ := h.of_bind
    have htx := totalBalance_applyTransaction hnext
    have hrest := ih h
    rw [map_cons, sum_cons, map_cons, sum_cons]
    omega

theorem totalBalance_uncles {uncles : List BlockHeader}
    (h : uncles.foldlM rewardUncle state = .ok state') :
    totalBalance state' = totalBalance state + uncles.length * 250000000000000000 := by
  induction uncles generalizing state with
  | nil =>
    obtain rfl := Except.ok.inj h
    simp
  | cons uncle uncles ih =>
    rw [foldlM_cons] at h
    obtain ⟨next, hnext, h⟩ := h.of_bind
    obtain ⟨reward, hrewa, hnext⟩ := Call.checked_bind_eq_ok.mp hnext
    have hrew : reward.toNat = 250000000000000000 := by
      cases hrewa
      rfl
    have hunc := totalBalance_credit (Call.liftM_eq_ok.mp hnext)
    rw [ih h, length_cons]
    omega

theorem totalBalance_applyBlockRewards (h : applyBlockRewards state block = .ok state') :
    totalBalance state' = totalBalance state + rewards block := by
  obtain ⟨next, hnext, h⟩ := Call.checked_bind_eq_ok.mp h
  have hmin := totalBalance_credit hnext
  have hbase : baseReward.toNat = 2000000000000000000 := rfl
  rw [totalBalance_uncles h, rewards]
  omega

theorem totalBalance_workingState [Build] (h : workingState state block = .ok state') :
    totalBalance state' + (block.transactions.map gasPaid).sum +
        (block.transactions.map valueLost).sum =
      totalBalance state + rewards block := by
  obtain ⟨next, hnext, h⟩ := h.of_bind
  have htxs := totalBalance_foldlM hnext
  have hrew := totalBalance_applyBlockRewards h
  omega

theorem valueLost_eq_zero_iff : valueLost tx = 0 ↔ (tx.toAddress = none → tx.value = 0) := by
  rw [valueLost]
  split_ifs with hnone
  · rw [imp_iff_right hnone, ← BitVec.toNat_inj]
    rfl
  · exact iff_of_true rfl fun h => absurd h hnone

end

/-- A transaction lowers the sum of the balances by what it pays for gas, and a block changes it by
the rewards and the gas, exactly if no contract creation carries a value. -/
theorem balance_sum_iff [Build] (state : Accounts) (tx : Transaction) (block : Block) :
    (∀ state', applyTransaction state tx = .ok state' →
      (totalBalance state' + gasPaid tx = totalBalance state ↔
        (tx.toAddress = none → tx.value = 0))) ∧
    ∀ working, workingState state block = .ok working →
      (totalBalance working + (block.transactions.map gasPaid).sum =
          totalBalance state + rewards block ↔
        ∀ tx ∈ block.transactions, tx.toAddress = none → tx.value = 0) := by
  refine ⟨fun state' h => ?_, fun working h => ?_⟩
  · have htot := totalBalance_applyTransaction h
    rw [← valueLost_eq_zero_iff]
    omega
  · have htot := totalBalance_workingState h
    have hzero : (block.transactions.map valueLost).sum = 0 ↔
        ∀ tx ∈ block.transactions, tx.toAddress = none → tx.value = 0 := by
      rw [List.sum_eq_zero_iff_forall_eq_nat, List.forall_mem_map]
      exact forall₂_congr fun tx _ => valueLost_eq_zero_iff
    rw [← hzero]
    omega

namespace Sample

open Rust.Debug

def accounts : Accounts := (∅ : Accounts).insert simplifiedSender ⟨0, 100000⟩

def transfer (toAddress : Option Address) : Transaction where
  nonce := 0
  gasPrice := some 2
  maxFeePerGas := none
  maxPriorityFeePerGas := none
  gasLimit := 21000
  toAddress
  value := 5
  input := []
  chainId := none
  accessList := none
  transactionType := 0
  signature := ⟨H256.zero, H256.zero, 0⟩

def block (toAddress : Option Address) : Block where
  header := ⟨simplifiedSender⟩
  transactions := [transfer toAddress]
  uncles := [⟨Address.zero⟩]

theorem balance_sum_self : ∃ state' working,
    applyTransaction accounts (transfer (some simplifiedSender)) = .ok state' ∧
      totalBalance state' + 42000 = totalBalance accounts ∧
      workingState accounts (block (some simplifiedSender)) = .ok working ∧
      totalBalance working + 42000 = totalBalance accounts + 2250000000000000000 := by
  refine ⟨_, _, rfl, ?_, rfl, ?_⟩
  · exact ((balance_sum_iff accounts (transfer (some simplifiedSender))
      (block (some simplifiedSender))).1 _ rfl).mpr (by decide)
  · exact ((balance_sum_iff accounts (transfer (some simplifiedSender))
      (block (some simplifiedSender))).2 _ rfl).mpr (by decide)

/-- A transaction without a recipient: its value is taken from the sender and given to no one. -/
theorem balance_sum_creation : ∃ state',
    applyTransaction accounts (transfer none) = .ok state' ∧
      totalBalance state' + 42000 ≠ totalBalance accounts :=
  ⟨_, rfl, by decide⟩

end Sample

end StateVerifier

end EthereumRust.Verification
