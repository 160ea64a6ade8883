import EthereumRust.Evm.Execution

/-!
# Accounts and the state database (`state.rs`, `lib.rs`)

The interpreter is generic in the `StateDB` trait and calls three of its methods; the others are
left out. The only implementation is the one on `HashMap<Address, Account>`.
-/

namespace EthereumRust.Evm

structure Account where
  balance : U256
  nonce : UInt64
  code : List UInt8
  storage : HashMap H256 H256

def Account.default : Account := ⟨0, 0, [], ∅⟩

class StateDB (S : Type) where
  getAccount : S → Address → Option Account
  getStorage : S → Address → H256 → H256
  setStorage : S → Address → H256 → H256 → S

namespace Accounts

variable (accounts : HashMap Address Account)

def getStorage (address : Address) (key : H256) : H256 :=
  ((accounts.lookup address).bind fun account => account.storage.lookup key).getD H256.zero

/-- `self.entry(address).or_insert_with(Account::default).storage.insert(key, value)`. -/
def setStorage (address : Address) (key value : H256) : HashMap Address Account :=
  let account := (accounts.lookup address).getD Account.default
  accounts.insert address { account with storage := account.storage.insert key value }

def accountAt (address : Address) : Account := (accounts.lookup address).getD Account.default

def stored (address : Address) (key : H256) : Option H256 :=
  (accounts.lookup address).bind fun account => account.storage.lookup key

theorem stored_eq : stored accounts addr key = (accountAt accounts addr).storage.lookup key := by
  unfold stored accountAt
  cases accounts.lookup addr <;> rfl

theorem lookup_setStorage :
    (setStorage accounts addr key value).lookup addr =
      some { accountAt accounts addr with
        storage := (accountAt accounts addr).storage.insert key value } :=
  Finmap.lookup_insert _

theorem lookup_setStorage_of_ne (h : a ≠ addr) (key value : H256) :
    (setStorage accounts addr key value).lookup a = accounts.lookup a :=
  Finmap.lookup_insert_of_ne _ h

theorem accountAt_setStorage :
    accountAt (setStorage accounts addr key value) addr =
      { accountAt accounts addr with
        storage := (accountAt accounts addr).storage.insert key value } := by
  rw [accountAt, lookup_setStorage, Option.getD_some]

end Accounts

instance : StateDB (HashMap Address Account) where
  getAccount accounts address := accounts.lookup address
  getStorage := Accounts.getStorage
  setStorage := Accounts.setStorage

end EthereumRust.Evm
