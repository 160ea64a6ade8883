import EthereumRust.Consensus.Config
import EthereumRust.Lib.Call
import EthereumRust.Network.Handshake

/-!
# Signatures of accounts (`crates/account`: `lib.rs`, `wallet.rs`; `crates/crypto`:
`secp256k1_crypto.rs`)

A signature carries a recovery id in `v`. The functions of `crates/crypto` write and read it as
27 plus the id, and are inverse to each other (`recoverAddress_signMessage`). The accounts write the
id itself: `verify_signature` reads it back that way (`verifySignature_signMessage`), and
`recover_address` stops at every such signature (`recoverAddress_of_signHash`).
-/

namespace EthereumRust

open Rust Network List

/-- `recover_ecdsa`, of a signature that `from_compact` accepts. -/
class EcdsaRecovery [Secp256k1] where
  recoverEcdsa : H256 → Bytes → Fin 4 → Except String PublicKey

export EcdsaRecovery (recoverEcdsa)

/-- Recovery ids are 0 to 3, and the signer of a message is recovered from its signature. -/
class LawfulEcdsaRecovery [Secp256k1] [EcdsaRecovery] : Prop where
  recoveryId_ofNat : ∀ id : Fin 4, recoveryId (.ofNat id) = .ok id
  recoveryId_of_le : ∀ {byte : UInt8}, 4 ≤ byte → ∃ e, recoveryId byte = .error e
  fromCompact_sign : ∀ message key,
    fromCompact (signEcdsaRecoverable message key).1.toList (signEcdsaRecoverable message key).2 =
      .ok ()
  recoverEcdsa_sign : ∀ message key,
    recoverEcdsa message (signEcdsaRecoverable message key).1.toList
      (signEcdsaRecoverable message key).2 = .ok (fromSecretKey key)

def publicKeyToAddress [Crypto] [Secp256k1] (publicKey : PublicKey) : Address :=
  ⟨(keccak256 (keyBytes publicKey)).toList.drop 12, by simp⟩

namespace Secp256k1Crypto

def secpResult {α : Type} : Except String α → Call CryptoError α :=
  Except.mapError fun _ => .err .secp256k1

def signatureResult {α : Type} : Except String α → Call CryptoError α :=
  Except.mapError fun _ => .err .invalidSignature

def ofHalves (sigBytes : List.Vector UInt8 64) (v : UInt8) : Signature where
  r := ⟨sigBytes.toList.take 32, by simp⟩
  s := ⟨sigBytes.toList.drop 32, by simp⟩
  v

theorem halves_append (sigBytes : List.Vector UInt8 64) (v : UInt8) :
    (ofHalves sigBytes v).r.toList ++ (ofHalves sigBytes v).s.toList = sigBytes.toList :=
  take_append_drop 32 _

theorem signatureFromBytes_append (sigBytes : List.Vector UInt8 64) (v : UInt8) :
    Consensus.signatureFromBytes (sigBytes.toList ++ [v]) = .ok (ofHalves sigBytes v) := by
  have hlen : sigBytes.toList.length = 64 := sigBytes.toList_length
  rw [Consensus.signatureFromBytes, dif_pos (by simp)]
  congr 2
  · exact Subtype.ext (take_append_of_le_length (by omega))
  · refine Subtype.ext ?_
    change ((sigBytes.toList ++ [v]).drop 32).take 32 = sigBytes.toList.drop 32
    rw [drop_append_of_le_length (by omega), take_left' (by simp)]
  · exact getElem_concat_length hlen.symm _

section
variable [Secp256k1]

def signMessage [Build] (message : H256) (privateKey : SecretKey) : Call CryptoError Signature := do
  let (sigBytes, recoveryId) := signEcdsaRecoverable message privateKey
  let v ← plusU8 (.ofNat recoveryId) 27
  return ofHalves sigBytes v

variable [EcdsaRecovery]

def recoverPublicKey [Build] (message : H256) (signature : Signature) :
    Call CryptoError PublicKey := do
  let id ← minusU8 signature.v 27
  let id ← signatureResult (recoveryId id)
  let sigBytes := signature.r.toList ++ signature.s.toList
  secpResult (fromCompact sigBytes id)
  secpResult (recoverEcdsa message sigBytes id)

def recoverAddress [Build] [Crypto] (message : H256) (signature : Signature) :
    Call CryptoError Address := do
  let publicKey ← recoverPublicKey message signature
  return publicKeyToAddress publicKey

variable [LawfulEcdsaRecovery]

theorem recoverAddress_of_shifted [Build] [Crypto] (msg : H256) :
    recoverAddress msg (ofHalves (signEcdsaRecoverable msg key).1
      (.ofNat (signEcdsaRecoverable msg key).2 + 27)) =
        .ok (publicKeyToAddress (fromSecretKey key)) := by
  have hle : ∀ id : Fin 4, (27 : UInt8) ≤ UInt8.ofNat id + 27 := by decide
  simp only [recoverAddress, recoverPublicKey, halves_append]
  simp only [ofHalves, minusU8_of_le (hle _), UInt8.add_sub_cancel, Call.liftM_ok, Call.ok_bind,
    signatureResult, Except.mapError, LawfulEcdsaRecovery.recoveryId_ofNat,
    LawfulEcdsaRecovery.fromCompact_sign, LawfulEcdsaRecovery.recoverEcdsa_sign]
  rfl

theorem recoverAddress_of_unshifted [Build] [Crypto]
    {id : Fin 4} (hv : sig.v = .ofNat id) : recoverAddress msg sig =
      .error (if Build.overflowChecks then .panic .arithmetic else .err .invalidSignature) := by
  have hlt : ∀ id : Fin 4, UInt8.ofNat id < 27 := by decide
  have hle : ∀ id : Fin 4, 4 ≤ UInt8.ofNat id - 27 := by decide
  obtain ⟨e, he⟩ := LawfulEcdsaRecovery.recoveryId_of_le (hle id)
  simp only [recoverAddress, recoverPublicKey, hv, minusU8_of_lt (hlt id)]
  split
  · rfl
  · simp only [Call.liftM_ok, Call.ok_bind, he]
    rfl

/-- `recover_address` returns the address of the key that `sign_message` has signed with. -/
theorem recoverAddress_signMessage [Build] [Crypto] (msg : H256) (key : SecretKey) :
    (signMessage msg key >>= recoverAddress msg) =
      .ok (publicKeyToAddress (fromSecretKey key)) := by
  have hlt : ∀ id : Fin 4, ¬256 ≤ (UInt8.ofNat id).toNat + (27 : UInt8).toNat := by decide
  simp only [signMessage, plusU8, hlt, and_false]
  exact recoverAddress_of_shifted msg

end

end Secp256k1Crypto

namespace Accounts
open Secp256k1Crypto (ofHalves halves_append signatureFromBytes_append recoverAddress_of_shifted
  recoverAddress_of_unshifted)

inductive AccountError where
  | invalidPassword
  | accountNotFound
  | invalidKeyFile
  | keystoreError (message : String)
  /-- With the error instead of its text. -/
  | signingError (error : CryptoError)
  | secp256k1Error (message : String)
  deriving DecidableEq

section
variable [Crypto] [Secp256k1]

/-- Its fields are private, and every function that builds an account derives them from the key. -/
structure Account where
  address : Address
  privateKey : SecretKey
  publicKey : PublicKey
  publicKey_eq : publicKey = fromSecretKey privateKey
  address_eq : address = publicKeyToAddress publicKey

structure HDAccount extends Account where
  index : UInt32
  derivationPath : String

structure HDWallet where
  accounts : List HDAccount

def signHash (hash : H256) (privateKey : SecretKey) : Except AccountError Signature :=
  let (sigBytes, recoveryId) := signEcdsaRecoverable hash privateKey
  (Consensus.signatureFromBytes (sigBytes.toList ++ [.ofNat recoveryId])).mapError .signingError

namespace Account

def fromPrivateKey (privateKey : SecretKey) : Account where
  address := publicKeyToAddress (fromSecretKey privateKey)
  privateKey
  publicKey := fromSecretKey privateKey
  publicKey_eq := rfl
  address_eq := rfl

def signMessage (self : Account) (message : Bytes) : Except AccountError Signature :=
  signHash (keccak256 message) self.privateKey

def signTransactionHash (self : Account) (txHash : H256) : Except AccountError Signature :=
  signHash txHash self.privateKey

def verifySignature [EcdsaRecovery] [DecidableEq PublicKey] (self : Account) (message : Bytes)
    (signature : Signature) : Bool :=
  let sigBytes := signature.r.toList ++ signature.s.toList
  let recovered := do
    let id ← recoveryId signature.v
    fromCompact sigBytes id
    recoverEcdsa (keccak256 message) sigBytes id
  match recovered with
  | .ok publicKey => publicKey = self.publicKey
  | .error _ => false

end Account

namespace HDWallet

def getAccount (self : HDWallet) (address : Address) : Option HDAccount :=
  self.accounts.find? fun account => account.address = address

def signMessage (self : HDWallet) (address : Address) (message : Bytes) :
    Except AccountError Signature :=
  match self.getAccount address with
  | none => .error .accountNotFound
  | some account => signHash (keccak256 message) account.privateKey

end HDWallet

omit [Crypto] in
theorem signHash_eq_ok (hash : H256) :
    signHash hash key = .ok (ofHalves (signEcdsaRecoverable hash key).1
      (.ofNat (signEcdsaRecoverable hash key).2)) := by
  simp only [signHash, signatureFromBytes_append]
  rfl

theorem HDWallet.signMessage_of_mem (s : HDWallet)
    (hmem : acct ∈ s.accounts) : ∃ first : HDAccount,
      first.address = acct.address ∧
      s.signMessage acct.address msg = signHash (keccak256 msg) first.privateKey := by
  cases hfind : s.getAccount acct.address with
  | none => exact absurd (find?_eq_none.mp hfind acct hmem) (by simp)
  | some first =>
    refine ⟨first, ?_, ?_⟩
    · simpa using find?_some hfind
    · rw [signMessage, hfind]

variable [EcdsaRecovery] [Build]

/-- `recover_address` stops at the signature. It would return the address if 27 were added to the
recovery id. -/
structure Unshifted (hash : H256) (address : Address) (signature : Signature) : Prop where
  stops : Secp256k1Crypto.recoverAddress hash signature =
    .error (if Build.overflowChecks then .panic .arithmetic else .err .invalidSignature)
  recovers : Secp256k1Crypto.recoverAddress hash { signature with v := signature.v + 27 } =
    .ok address

variable [LawfulEcdsaRecovery]

theorem unshifted_signHash (hash : H256) (acct : Account) :
    ∃ sig, signHash hash acct.privateKey = .ok sig ∧ Unshifted hash acct.address sig := by
  refine ⟨_, signHash_eq_ok hash, recoverAddress_of_unshifted rfl, ?_⟩
  rw [acct.address_eq, acct.publicKey_eq]
  exact recoverAddress_of_shifted hash

omit [Build] in
/-- An account accepts the signature that another one has made of a message exactly if the two have
the same public key. -/
theorem Account.verifySignature_signMessage [DecidableEq PublicKey] (self other : Account)
    (message : Bytes) : (self.signMessage message).map (other.verifySignature message) =
      .ok (decide (self.publicKey = other.publicKey)) := by
  rw [signMessage, signHash_eq_ok, Except.map, verifySignature, halves_append]
  simp only [ofHalves, LawfulEcdsaRecovery.recoveryId_ofNat, bind, Except.bind,
    LawfulEcdsaRecovery.fromCompact_sign, LawfulEcdsaRecovery.recoverEcdsa_sign, self.publicKey_eq]

/-- Whatever an account or a wallet signs has the bare recovery id in `v`, where 27 plus it is
expected. -/
theorem unshifted_sign (acct : Account) (hash : H256) (msg : Bytes) (wallet : HDWallet) :
    (∃ sig, acct.signTransactionHash hash = .ok sig ∧
      Unshifted hash acct.address sig) ∧
    (∃ sig, acct.signMessage msg = .ok sig ∧
      Unshifted (keccak256 msg) acct.address sig) ∧
    ∀ derived ∈ wallet.accounts, ∃ sig,
      wallet.signMessage derived.address msg = .ok sig ∧
      Unshifted (keccak256 msg) derived.address sig := by
  refine ⟨unshifted_signHash hash acct, unshifted_signHash _ acct, fun derived hmem => ?_⟩
  obtain ⟨first, haddr, hsign⟩ := wallet.signMessage_of_mem hmem
  rw [hsign, ← haddr]
  exact unshifted_signHash _ first.toAccount

end

namespace Sample

scoped instance : Secp256k1 where
  SecretKey := UInt8
  PublicKey := UInt8
  fromSecretKey key := key
  mulTweak key tweak := .ok (key * tweak)
  serializeUncompressed key := ⟨4 :: (List.replicate 63 0 ++ [key]), rfl⟩
  fromSlice bytes := .ok (bytes.getLastD 0)
  signEcdsaRecoverable _ key := (⟨key :: List.replicate 63 0, rfl⟩, Fin.last 3)
  recoveryId byte :=
    if h : byte.toNat < 4 then .ok ⟨byte.toNat, h⟩ else .error "InvalidRecoveryId"
  fromCompact _ _ := .ok ()

scoped instance : EcdsaRecovery where
  recoverEcdsa _ bytes _ := .ok (bytes.headD 0)

scoped instance : LawfulEcdsaRecovery where
  recoveryId_ofNat := by decide
  recoveryId_of_le h := ⟨_, dif_neg (Nat.not_lt.mpr (UInt8.le_iff_toNat_le.mp h))⟩
  fromCompact_sign _ _ := rfl
  recoverEcdsa_sign _ _ := rfl

open Unhashed Rust.Debug

theorem unshifted_sign_five : ∃ sig,
    (Account.fromPrivateKey (5 : UInt8)).signTransactionHash H256.zero = .ok sig ∧
    Unshifted H256.zero Address.zero sig :=
  (unshifted_sign (.fromPrivateKey (5 : UInt8)) H256.zero [] ⟨[]⟩).1

/-- A transaction hash signed by an account: with overflow checks, the recovery panics. -/
theorem recoverAddress_signTransactionHash :
    (((Account.fromPrivateKey (5 : UInt8)).signTransactionHash H256.zero).toOption.map
      (Secp256k1Crypto.recoverAddress H256.zero)) = some (.error (.panic .arithmetic)) := by
  decide +kernel

theorem recoverAddress_signMessage_five :
    (Secp256k1Crypto.signMessage H256.zero (5 : UInt8) >>=
      Secp256k1Crypto.recoverAddress H256.zero) = .ok Address.zero :=
  Secp256k1Crypto.recoverAddress_signMessage H256.zero (5 : UInt8)

scoped instance : DecidableEq PublicKey := inferInstanceAs (DecidableEq UInt8)

theorem verifySignature_signMessage_five :
    ((Account.fromPrivateKey (5 : UInt8)).signMessage [1]).map
      ((Account.fromPrivateKey (6 : UInt8)).verifySignature [1]) = .ok false :=
  Account.verifySignature_signMessage (.fromPrivateKey (5 : UInt8))
    (.fromPrivateKey (6 : UInt8)) [1]

end Sample

end Accounts

end EthereumRust
