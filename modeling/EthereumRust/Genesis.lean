import EthereumRust.Types.Address
import EthereumRust.Lib.WriteLog

/-!
# The genesis state (`genesis.rs`)

The accounts of the genesis block and their storage are hash maps with texts as keys, which are
parsed and inserted into a trie one after the other. Different texts can denote one address or one
slot: with `0x` in front and without, or with letters of another case. Then the entry that the
iteration comes to last remains. The root is a parameter, a function of what the trie holds.
-/

namespace EthereumRust.Genesis

open Rust WriteLog Multiset List

structure Account where
  nonce : UInt64
  balance : U256
  storageRoot : H256
  codeHash : H256
  code : Bytes
  deriving DecidableEq

structure GenesisAccount where
  balance : String
  nonce : Option UInt64
  code : Option String
  storage : Option (HashMap String String)

structure GenesisConfig where
  alloc : HashMap String GenesisAccount

class GenesisCodec where
  fromHexStr : String → Option U256
  fromDecStr : String → Option U256
  serialize : Account → Except String Bytes
  root : HashMap Bytes Bytes → H256

def parseU256 [GenesisCodec] (s : String) : Except String U256 :=
  if "0x".toList <+: s.toList then
    ((GenesisCodec.fromHexStr (strip0x s)).elim (.error "Failed to parse hex U256") .ok)
  else (GenesisCodec.fromDecStr s).elim (.error "Failed to parse U256") .ok

def parseBytes (s : String) : Except String Bytes :=
  (Hex.decode (strip0x s)).elim (.error "Failed to parse hex bytes") .ok

def parseFixed (n : Nat) (what : String) (s : String) : Except String (List.Vector UInt8 n) := do
  let bytes ← parseBytes s
  if h : bytes.length = n then return ⟨bytes, h⟩
  else throw s!"Invalid {what} length: {bytes.length}"

def parseH256 (s : String) : Except String H256 := parseFixed 32 "H256" s

def parseAddress (s : String) : Except String Address := parseFixed 20 "address" s

structure Iteration {K V : Type} (m : HashMap K V) where
  entries : List (Σ _ : K, V)
  entries_eq : (entries : Multiset (Σ _ : K, V)) = m.entries

structure Orders (config : GenesisConfig) where
  alloc : Iteration config.alloc
  storage : String → (m : HashMap String String) → Iteration m

section
variable [GenesisCodec]

def storageWrite (entry : Σ _ : String, String) : Except String (Bytes × Bytes) := do
  let key ← parseH256 entry.1
  let value ← parseH256 entry.2
  return (key.toList, value.toList)

def buildStorage {storage : HashMap String String} (order : Iteration storage) :
    Except String H256 := do
  let storageTrie ← insertAll storageWrite order.entries
  return GenesisCodec.root storageTrie

variable [Crypto] {cfg : GenesisConfig}

def setCode (account : Account) : Option String → Except String Account
  | none => pure account
  | some codeStr => do
    let code ← parseBytes codeStr
    return { account with codeHash := keccak256 code, code }

def setStorage (order : (m : HashMap String String) → Iteration m) (account : Account) :
    Option (HashMap String String) → Except String Account
  | none => pure account
  | some storage => do
    let storageRoot ← buildStorage (order storage)
    return { account with storageRoot }

def buildAccount (orders : Orders config) (addressStr : String) (genesisAccount : GenesisAccount) :
    Except String Account := do
  let balance ← parseU256 genesisAccount.balance
  let account : Account := ⟨genesisAccount.nonce.getD 0, balance, .zero, .zero, []⟩
  let account ← setCode account genesisAccount.code
  setStorage (orders.storage addressStr) account genesisAccount.storage

def accountWrite (orders : Orders config) (entry : Σ _ : String, GenesisAccount) :
    Except String (Bytes × Bytes) := do
  let address ← parseAddress entry.1
  let account ← buildAccount orders entry.1 entry.2
  let accountBytes ← GenesisCodec.serialize account
  return (address.toList, accountBytes)

def buildState (orders : Orders config) : Except String H256 := do
  let state ← insertAll (accountWrite orders) orders.alloc.entries
  return GenesisCodec.root state

structure Unambiguous (config : GenesisConfig) : Prop where
  storage : ∀ entry ∈ config.alloc.entries, ∀ storage, entry.2.storage = some storage →
    ∀ s ∈ storage.entries, ∀ s' ∈ storage.entries,
      parseH256 s.1 = parseH256 s'.1 → parseH256 s.2 = parseH256 s'.2
  alloc : ∀ orders : Orders config, ∀ entry ∈ config.alloc.entries,
    ∀ entry' ∈ config.alloc.entries, parseAddress entry.1 = parseAddress entry'.1 →
      buildAccount orders entry.1 entry.2 = buildAccount orders entry'.1 entry'.2

section
omit [GenesisCodec] [Crypto]

theorem Iteration.perm {m : HashMap K V} (order order' : Iteration m) :
    order.entries.Perm order'.entries :=
  coe_eq_coe.mp (order.entries_eq.trans order'.entries_eq.symm)

theorem Iteration.mem_iff {m : HashMap K V} (order : Iteration m)
    {entry : Σ _ : K, V} : entry ∈ order.entries ↔ entry ∈ m.entries := by
  rw [← order.entries_eq, mem_coe]

theorem of_storageWrite
    (h : storageWrite entry = .ok (k, v)) : ∃ key value, parseH256 entry.1 = .ok key ∧
      parseH256 entry.2 = .ok value ∧ key.toList = k ∧ value.toList = v := by
  obtain ⟨key, hkey, h⟩ := h.of_bind
  obtain ⟨value, hval, h⟩ := h.of_bind
  cases h
  exact ⟨key, value, hkey, hval, rfl, rfl⟩

theorem consistent_storageWrite_iff (h : ∀ entry ∈ es, ∃ w, storageWrite entry = .ok w) :
    Consistent storageWrite es ↔ ∀ s ∈ es, ∀ s' ∈ es,
      parseH256 s.1 = parseH256 s'.1 → parseH256 s.2 = parseH256 s'.2 := by
  constructor
  · intro hcon s hs s' hs' hkey
    obtain ⟨⟨k, v⟩, hw⟩ := h s hs
    obtain ⟨⟨k', v'⟩, hw'⟩ := h s' hs'
    obtain ⟨key, value, hkey₁, hvalue, rfl, rfl⟩ := of_storageWrite hw
    obtain ⟨key', value', hkey₁', hvalue', rfl, rfl⟩ := of_storageWrite hw'
    cases hkey₁.symm.trans (hkey.trans hkey₁')
    rw [hvalue, hvalue', List.Vector.eq _ _ (hcon s hs s' hs' _ _ _ hw hw')]
  · intro hsame s hs s' hs' k v v' hw hw'
    obtain ⟨key, value, hkey, hvalue, rfl, rfl⟩ := of_storageWrite hw
    obtain ⟨key', value', hkey', hvalue', hkeys, rfl⟩ := of_storageWrite hw'
    have hkeys : key' = key := List.Vector.eq _ _ hkeys
    have hval := hsame s hs s' hs' (by rw [hkey, hkey', hkeys])
    rw [hvalue, hvalue'] at hval
    cases hval
    rfl

end

theorem of_accountWrite {orders : Orders cfg}
    (h : accountWrite orders entry = .ok (k, v)) : ∃ addr acct,
      parseAddress entry.1 = .ok addr ∧ buildAccount orders entry.1 entry.2 = .ok acct ∧
        GenesisCodec.serialize acct = .ok v ∧ addr.toList = k := by
  obtain ⟨addr, haddr, h⟩ := h.of_bind
  obtain ⟨acct, hacc, h⟩ := h.of_bind
  obtain ⟨accountBytes, hbs, h⟩ := h.of_bind
  cases h
  exact ⟨addr, acct, haddr, hacc, hbs, rfl⟩

theorem buildAccount_congr {orders orders' : Orders cfg}
    (h : ∀ sto, acct.storage = some sto → buildStorage (orders.storage addressStr sto) =
      buildStorage (orders'.storage addressStr sto)) :
    buildAccount orders addressStr acct = buildAccount orders' addressStr acct := by
  rw [buildAccount, buildAccount]
  cases hst : acct.storage with
  | none => rfl
  | some sto => simp only [setStorage, h sto hst]

theorem of_buildAccount {orders : Orders cfg}
    (h : buildAccount orders addressStr acct = .ok account) (hst : acct.storage = some sto) :
    buildStorage (orders.storage addressStr sto) = .ok account.storageRoot := by
  rw [buildAccount, hst] at h
  obtain ⟨bal, -, h⟩ := h.of_bind
  obtain ⟨account', -, h⟩ := h.of_bind
  obtain ⟨storageRoot, hroot, h⟩ := h.of_bind
  cases h
  exact hroot

omit [GenesisCodec] [Crypto] in
theorem insertAll_storage_eq (h : ∀ s ∈ sto.entries, ∀ s' ∈ sto.entries,
      parseH256 s.1 = parseH256 s'.1 → parseH256 s.2 = parseH256 s'.2)
    {order : Iteration sto} (htrie : insertAll storageWrite order.entries = .ok trie)
    (order' : Iteration sto) : insertAll storageWrite order'.entries = .ok trie := by
  have hcon : Consistent storageWrite order.entries := by
    rw [consistent_storageWrite_iff (exists_insertAll_iff.mp ⟨trie, htrie⟩)]
    simpa only [order.mem_iff] using h
  exact insertAll_perm hcon (fun _ _ => rfl) (order.perm order') htrie

omit [Crypto] in
theorem buildStorage_eq (h : ∀ s ∈ sto.entries, ∀ s' ∈ sto.entries,
      parseH256 s.1 = parseH256 s'.1 → parseH256 s.2 = parseH256 s'.2)
    {order order' : Iteration sto} (hroot : buildStorage order = .ok root) :
    buildStorage order' = .ok root := by
  obtain ⟨trie, htrie, hroot⟩ := hroot.of_bind
  exact Except.bind_eq_ok.mpr ⟨trie, insertAll_storage_eq h htrie order', hroot⟩

theorem Unambiguous.consistent (h : Unambiguous cfg) (orders : Orders cfg) :
    Consistent (accountWrite orders) orders.alloc.entries := by
  intro entry hent entry' hent' k v v' hw hw'
  obtain ⟨addr, acct, haddr, haccount, hbs, rfl⟩ := of_accountWrite hw
  obtain ⟨addr', acct', haddr', haccount', hbs', hk⟩ := of_accountWrite hw'
  rw [orders.alloc.mem_iff] at hent hent'
  have hacc := h.alloc orders entry hent entry' hent'
    (by rw [haddr, haddr', List.Vector.eq _ _ hk])
  rw [haccount, haccount'] at hacc
  cases hacc
  exact Except.ok.inj (hbs.symm.trans hbs')

theorem Unambiguous.insertAll_eq (h : Unambiguous cfg) {orders : Orders cfg}
    (hm : insertAll (accountWrite orders) orders.alloc.entries = .ok m) (orders' : Orders cfg) :
    insertAll (accountWrite orders') orders'.alloc.entries = .ok m := by
  have hwr : ∀ entry ∈ orders.alloc.entries,
      accountWrite orders' entry = accountWrite orders entry := by
    intro entry hent
    obtain ⟨⟨k, v⟩, hw⟩ := exists_insertAll_iff.mp ⟨m, hm⟩ entry hent
    obtain ⟨_, acct, -, hacc, -⟩ := of_accountWrite hw
    rw [accountWrite, accountWrite, buildAccount_congr fun sto hst => ?_]
    have hroot := of_buildAccount hacc hst
    rw [hroot]
    exact buildStorage_eq (h.storage entry (orders.alloc.mem_iff.mp hent) sto hst) hroot
  exact insertAll_perm (h.consistent orders) hwr (orders.alloc.perm orders'.alloc) hm

theorem Unambiguous.buildState_eq (h : Unambiguous cfg) {orders : Orders cfg}
    (hbld : buildState orders = .ok root) (orders' : Orders cfg) :
    buildState orders' = .ok root := by
  obtain ⟨m, hm, hroot⟩ := hbld.of_bind
  exact Except.bind_eq_ok.mpr ⟨m, h.insertAll_eq hm orders', hroot⟩

/-- The tries whose roots building the state can take. -/
def tries (config : GenesisConfig) : Set (HashMap Bytes Bytes) := fun trie =>
  (∃ orders : Orders config, insertAll (accountWrite orders) orders.alloc.entries = .ok trie) ∨
    ∃ entry ∈ config.alloc.entries, ∃ storage, entry.2.storage = some storage ∧
      ∃ order : Iteration storage, insertAll storageWrite order.entries = .ok trie

section
variable {m : HashMap Bytes Bytes}
  (hm : ∀ orders : Orders cfg, insertAll (accountWrite orders) orders.alloc.entries = .ok m)
include hm

theorem lookup_accountWrite {orders : Orders cfg} (hent : entry ∈ cfg.alloc.entries)
    (hw : accountWrite orders entry = .ok (k, v)) : m.lookup k = some v := by
  refine lookup_of_last (orders.alloc.mem_iff.mpr hent) hw fun es' hperm => ?_
  have hents : (es' : Multiset _) = cfg.alloc.entries :=
    (coe_eq_coe.mpr hperm.symm).trans orders.alloc.entries_eq
  exact hm ⟨⟨es', hents⟩, orders.storage⟩

theorem buildAccount_eq
    (hser : ∀ {acct acct' : Account} {bytes : Bytes}, GenesisCodec.serialize acct = .ok bytes →
      GenesisCodec.serialize acct' = .ok bytes → acct = acct') (orders orders' : Orders cfg)
    (hent : entry ∈ cfg.alloc.entries) (hent' : entry' ∈ cfg.alloc.entries)
    (haddr : parseAddress entry.1 = parseAddress entry'.1) :
    ∃ acct, buildAccount orders entry.1 entry.2 = .ok acct ∧
      buildAccount orders' entry'.1 entry'.2 = .ok acct := by
  have hwri (orders : Orders cfg) {entry} (hent : entry ∈ cfg.alloc.entries) :
      ∃ w, accountWrite orders entry = .ok w :=
    exists_insertAll_iff.mp ⟨m, hm orders⟩ entry (orders.alloc.mem_iff.mpr hent)
  obtain ⟨⟨k, v⟩, hw⟩ := hwri orders hent
  obtain ⟨⟨k', v'⟩, hw'⟩ := hwri orders' hent'
  have hget := lookup_accountWrite hm hent hw
  have hget' := lookup_accountWrite hm hent' hw'
  obtain ⟨addr, acct, haddr₁, hacc, hbs, rfl⟩ := of_accountWrite hw
  obtain ⟨addr', acct', haddr₁', hacc', hbs', rfl⟩ := of_accountWrite hw'
  cases haddr₁.symm.trans (haddr.trans haddr₁')
  cases hget.symm.trans hget'
  cases hser hbs hbs'
  exact ⟨acct, hacc, hacc'⟩

end

theorem unambiguous_of_buildState_eq (hroot : Set.InjOn GenesisCodec.root (tries cfg))
    (hser : ∀ {acct acct' : Account} {bytes : Bytes}, GenesisCodec.serialize acct = .ok bytes →
      GenesisCodec.serialize acct' = .ok bytes → acct = acct') (orders₀ : Orders cfg)
    (hbld : ∀ orders : Orders cfg, buildState orders = .ok root) : Unambiguous cfg := by
  classical
  obtain ⟨m, hm₀, hroot₀⟩ := Except.bind_eq_ok.mp (hbld orders₀)
  have hm (orders : Orders cfg) :
      insertAll (accountWrite orders) orders.alloc.entries = .ok m := by
    obtain ⟨m', hm', hroot'⟩ := Except.bind_eq_ok.mp (hbld orders)
    rw [hm', hroot (.inl ⟨orders, hm'⟩) (.inl ⟨orders₀, hm₀⟩)
      (Except.ok.inj (hroot'.trans hroot₀.symm))]
  constructor
  · intro entry hent sto hst
    obtain ⟨acct, hacc, -⟩ := buildAccount_eq hm hser orders₀ orders₀ hent hent rfl
    obtain ⟨trie, htrie, hsto⟩ := Except.bind_eq_ok.mp (of_buildAccount hacc hst)
    have hperm : ∀ es', (orders₀.storage entry.1 sto).entries.Perm es' →
        insertAll storageWrite es' = .ok trie := by
      intro es' hperm
      -- The same build, with this iteration of the sto.
      let order : Iteration sto := ⟨es', (coe_eq_coe.mpr hperm.symm).trans
        (orders₀.storage entry.1 sto).entries_eq⟩
      let orders : Orders cfg :=
        ⟨orders₀.alloc, fun _ => Function.update (orders₀.storage entry.1) sto order⟩
      obtain ⟨acct', hacc₁, hacc'⟩ :=
        buildAccount_eq hm hser orders₀ orders hent hent rfl
      cases hacc.symm.trans hacc₁
      have hbui := of_buildAccount hacc' hst
      rw [show orders.storage entry.1 sto = order from Function.update_self ..] at hbui
      obtain ⟨trie', htrie', hsto'⟩ := hbui.of_bind
      have hsame := Except.ok.inj (hsto'.trans hsto.symm)
      rw [← hroot (.inr ⟨entry, hent, sto, hst, order, htrie'⟩)
        (.inr ⟨entry, hent, sto, hst, _, htrie⟩) hsame]
      exact htrie'
    have hcon := (forall_insertAll_perm_iff htrie).mp hperm
    rw [consistent_storageWrite_iff (exists_insertAll_iff.mp ⟨trie, htrie⟩)] at hcon
    simpa only [Iteration.mem_iff] using hcon
  · intro orders entry hent entry' hent' haddr
    obtain ⟨acct, hacc, hacc'⟩ :=
      buildAccount_eq hm hser orders orders hent hent' haddr
    rw [hacc, hacc']

end

/-- The state root of a genesis that can be built does not depend on the order of the iterations, if
texts for the same slot come with the same value and texts for the same address with the same
account. If the tries of the build have different roots, the root is independent only then. -/
theorem buildState_order [GenesisCodec] [Crypto] (cfg : GenesisConfig) {orders : Orders cfg}
    {root : H256} (hbld : buildState orders = .ok root) :
    (Unambiguous cfg → ∀ orders' : Orders cfg, buildState orders' = .ok root) ∧
      (Set.InjOn GenesisCodec.root (tries cfg) →
        (∀ {acct acct' : Account} {bytes : Bytes}, GenesisCodec.serialize acct = .ok bytes →
          GenesisCodec.serialize acct' = .ok bytes → acct = acct') →
        (∀ orders' : Orders cfg, buildState orders' = .ok root) → Unambiguous cfg) :=
  ⟨fun h => h.buildState_eq hbld, fun hroot hser =>
    unambiguous_of_buildState_eq hroot hser orders⟩

namespace Sample
open Unhashed

/-- A balance is the length of its text, an account is written field by field, and the root of a
trie is a checksum of what it holds. -/
scoped instance : GenesisCodec where
  fromHexStr s := some (.ofNat 256 s.length)
  fromDecStr s := some (.ofNat 256 s.length)
  serialize account := .ok (toBigEndian 8 account.nonce.toNat ++
    (toBigEndian 32 account.balance.toNat ++ (account.storageRoot.toList ++
      (account.codeHash.toList ++ account.code))))
  root trie := .ofU256 (.ofNat 256
    (trie.entries.map fun e => ofBigEndian e.1 + ofBigEndian e.2 % (2 ^ 256 - 1)).sum)

theorem serialize_inj {acct acct' : Account} {bytes : Bytes}
    (h : GenesisCodec.serialize acct = .ok bytes)
    (h' : GenesisCodec.serialize acct' = .ok bytes) : acct = acct' := by
  obtain ⟨nonce, bal, storageRoot, codeHash, code⟩ := acct
  obtain ⟨nonce', bal', storageRoot', codeHash', code'⟩ := acct'
  have heq := Except.ok.inj (h.trans h'.symm)
  obtain ⟨hnon, heq⟩ := append_inj heq (by simp)
  obtain ⟨hbal, heq⟩ := append_inj heq (by simp)
  obtain ⟨hroot, heq⟩ := append_inj heq (by simp)
  obtain ⟨hhash, rfl⟩ := append_inj heq (by simp)
  have hnon := (toBigEndian_inj nonce.toNat_lt nonce'.toNat_lt).mp hnon
  have hbal := (toBigEndian_inj bal.isLt bal'.isLt).mp hbal
  cases UInt64.toNat_inj.mp hnon
  cases BitVec.eq_of_toNat_eq hbal
  cases List.Vector.eq _ _ hroot
  cases List.Vector.eq _ _ hhash
  rfl

def digits (n : Nat) (last : Char) : String := .ofList (List.replicate (n - 1) '0' ++ [last])

def slots : HashMap String String :=
  ⟨↑[(⟨digits 64 '0', digits 64 '5'⟩ : Σ _ : String, String), ⟨digits 64 '1', digits 64 '6'⟩],
    (by decide : [digits 64 '0', digits 64 '1'].Nodup)⟩

def plain : Σ _ : String, GenesisAccount := ⟨digits 40 '0', "1", none, none, none⟩

def marked : Σ _ : String, GenesisAccount := ⟨"0x" ++ digits 40 '0', "22", none, none, none⟩

def contract : Σ _ : String, GenesisAccount := ⟨digits 40 '1', "1", none, none, some slots⟩

def pair : GenesisConfig := ⟨⟨↑[plain, contract], (by decide : [plain, contract].keys.Nodup)⟩⟩

def both : GenesisConfig := ⟨⟨↑[plain, marked], (by decide : [plain, marked].keys.Nodup)⟩⟩

noncomputable def anyOrder {K V : Type} (m : HashMap K V) : Iteration m :=
  ⟨m.entries.toList, Multiset.coe_toList _⟩

theorem slots_unambiguous : ∀ s ∈ slots.entries, ∀ s' ∈ slots.entries,
    parseH256 s.1 = parseH256 s'.1 → parseH256 s.2 = parseH256 s'.2 := by
  decide +kernel

theorem buildStorage_slots (order : Iteration slots) : buildStorage order = .ok (.ofU256 12) := by
  have h : buildStorage (⟨_, rfl⟩ : Iteration slots) = .ok (.ofU256 12) := by decide +kernel
  exact buildStorage_eq slots_unambiguous h

theorem unambiguous_pair : Unambiguous pair where
  storage entry hent storage hst := by
    rcases mem_pair.mp (mem_coe.mp hent) with rfl | rfl
    · cases hst
    · cases hst
      exact slots_unambiguous
  alloc orders entry hent entry' hent' haddr := by
    have hne : parseAddress plain.1 ≠ parseAddress contract.1 := by decide +kernel
    rcases mem_pair.mp (mem_coe.mp hent) with rfl | rfl
    · rcases mem_pair.mp (mem_coe.mp hent') with rfl | rfl
      · rfl
      · exact absurd haddr hne
    · rcases mem_pair.mp (mem_coe.mp hent') with rfl | rfl
      · exact absurd haddr.symm hne
      · rfl

noncomputable def pairOrders : Orders pair := ⟨⟨[plain, contract], rfl⟩, fun _ => anyOrder⟩

theorem buildState_pair : buildState pairOrders = .ok (.ofU256 15) := by
  have hcon : buildAccount pairOrders contract.1 contract.2 =
      .ok ⟨0, 1, .ofU256 12, .zero, []⟩ := by
    change (do let storageRoot ← buildStorage (anyOrder slots)
               return (⟨0, 1, storageRoot, .zero, []⟩ : Account)) = _
    rw [buildStorage_slots]
    rfl
  change (insertAll (accountWrite pairOrders) [plain, contract] >>= _) = _
  simp only [insertAll, foldlM_cons, accountWrite, hcon]
  decide +kernel

theorem injOn_root_pair : Set.InjOn GenesisCodec.root (tries pair) := by
  have hstate {trie} (h : ∃ orders : Orders pair,
      insertAll (accountWrite orders) orders.alloc.entries = .ok trie) :
      insertAll (accountWrite pairOrders) pairOrders.alloc.entries = .ok trie := by
    obtain ⟨orders, h⟩ := h
    exact unambiguous_pair.insertAll_eq h pairOrders
  have hst {trie} (h : ∃ entry ∈ pair.alloc.entries, ∃ sto, entry.2.storage = some sto ∧
      ∃ order : Iteration sto, insertAll storageWrite order.entries = .ok trie) :
      insertAll storageWrite (anyOrder slots).entries = .ok trie := by
    obtain ⟨entry, hent, sto, hst, order, h⟩ := h
    rcases mem_pair.mp (mem_coe.mp hent) with rfl | rfl
    · cases hst
    · cases hst
      exact insertAll_storage_eq slots_unambiguous h _
  have hne {trie trie'}
      (h : insertAll (accountWrite pairOrders) pairOrders.alloc.entries = .ok trie)
      (h' : insertAll storageWrite (anyOrder slots).entries = .ok trie') :
      GenesisCodec.root trie ≠ GenesisCodec.root trie' := by
    obtain ⟨_, hm, hroot⟩ := Except.bind_eq_ok.mp buildState_pair
    cases h.symm.trans hm
    obtain ⟨_, ht, hroot'⟩ := Except.bind_eq_ok.mp (buildStorage_slots (anyOrder slots))
    cases h'.symm.trans ht
    rw [Except.ok.inj hroot, Except.ok.inj hroot']
    decide +kernel
  rintro trie (h | h) trie' (h' | h') hroot
  · exact Except.ok.inj ((hstate h).symm.trans (hstate h'))
  · exact absurd hroot (hne (hstate h) (hst h'))
  · exact absurd hroot.symm (hne (hstate h') (hst h))
  · exact Except.ok.inj ((hst h).symm.trans (hst h'))

/-- Two addresses, one with two slots: the root is the same for every order, and from that it
follows that no text is ambiguous. -/
theorem buildState_order_pair :
    (∀ orders : Orders pair, buildState orders = .ok (.ofU256 15)) ∧ Unambiguous pair := by
  obtain ⟨hsame, huna⟩ := buildState_order pair buildState_pair
  have hall := hsame unambiguous_pair
  exact ⟨hall, huna injOn_root_pair serialize_inj hall⟩

/-- With and without `0x` two texts are one address, and the order decides which balance it gets. -/
theorem buildState_both : ∃ orders orders' : Orders both,
    buildState orders = .ok (.ofU256 2) ∧ buildState orders' = .ok (.ofU256 1) :=
  ⟨⟨⟨[plain, marked], rfl⟩, fun _ => anyOrder⟩,
    ⟨⟨[marked, plain], coe_eq_coe.mpr (.swap _ _ _)⟩, fun _ => anyOrder⟩, by decide +kernel,
    by decide +kernel⟩

end Sample

end EthereumRust.Genesis
