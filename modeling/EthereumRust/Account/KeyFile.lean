import EthereumRust.Account.Signing
import EthereumRust.Lib.Hex

/-!
# Key files (`crates/account`: `keystore.rs`)

`encrypt` derives a key from the password with scrypt, encrypts the private key with its first half
and authenticates the ciphertext with its second half. `decrypt` derives the key again, with the
parameters that the file states. But `encrypt` works with the cost 2¹⁴ and states 8192, which is 2¹³
(`decrypt_encrypt`).

The primitives are parameters: scrypt and PBKDF2 are functions of their inputs, and AES in counter
mode adds a key stream to the data.
-/

namespace EthereumRust.Accounts
open Rust Network List Hex

/-- The bytes of a secret key, in the crate `secp256k1`. -/
class SecretBytes [Secp256k1] where
  secretBytes : SecretKey → List.Vector UInt8 32
  secretFromSlice : Bytes → Except String SecretKey

export SecretBytes (secretBytes secretFromSlice)

/-- A slice is a secret key exactly if it is the bytes of that key. -/
class LawfulSecretBytes [Secp256k1] [SecretBytes] : Prop where
  secretFromSlice_eq_ok : ∀ {bytes key},
    secretFromSlice bytes = .ok key ↔ bytes = (secretBytes key).toList

structure ScryptParams where
  logN : UInt8
  r : UInt32
  p : UInt32
  len : Nat
  deriving DecidableEq

/-- The key derivation of the `scrypt` and `pbkdf2` crates. -/
class Kdf where
  paramsError : ScryptParams → Option String
  lengthError : Nat → Option String
  scrypt : Bytes → Bytes → ScryptParams → (len : Nat) → List.Vector UInt8 len
  pbkdf2HmacSha256 : Bytes → Bytes → UInt32 → (len : Nat) → List.Vector UInt8 len

/-- The parameters of `encrypt` are accepted, also with the cost that it states. -/
class LawfulKdf [Kdf] : Prop where
  paramsError_eq : ∀ logN ∈ [13, 14], Kdf.paramsError ⟨logN, 8, 1, 32⟩ = none
  lengthError_eq : Kdf.lengthError 32 = none

class Aes128 where
  keystream : List.Vector UInt8 16 → List.Vector UInt8 16 → Nat → UInt8

def applyKeystream [Aes128] (key iv : List.Vector UInt8 16) (data : Bytes) : Bytes :=
  data.zipIdx.map fun byte => byte.1 ^^^ Aes128.keystream key iv byte.2

theorem getElem_applyKeystream [Aes128] (h : i < (applyKeystream key iv data).length) :
    (applyKeystream key iv data)[i] =
      data.get ⟨i, by simpa [applyKeystream] using h⟩ ^^^ Aes128.keystream key iv i := by
  simp [applyKeystream]

theorem applyKeystream_eq_iff [Aes128] {key key' iv : List.Vector UInt8 16} {data : Bytes} :
    applyKeystream key iv (applyKeystream key' iv data) = data ↔
      ∀ i < data.length, Aes128.keystream key iv i = Aes128.keystream key' iv i := by
  have hlen : (applyKeystream key iv (applyKeystream key' iv data)).length = data.length := by
    simp [applyKeystream]
  rw [ext_getElem_iff, and_iff_right hlen]
  refine forall_congr' fun i => ⟨fun h hi => ?_, fun h hi hi' => ?_⟩
  · have hxor := h (hlen ▸ hi) hi
    simp only [getElem_applyKeystream, get_eq_getElem, UInt8.xor_assoc] at hxor
    have hzero := (UInt8.xor_right_inj _).mp (hxor.trans UInt8.xor_zero.symm)
    exact (UInt8.xor_eq_zero_iff.mp hzero).symm
  · simp only [getElem_applyKeystream, get_eq_getElem, h hi', UInt8.xor_assoc, UInt8.xor_self,
      UInt8.xor_zero]

structure CipherParams where
  iv : String
  deriving DecidableEq

inductive KdfParams where
  | scrypt (dklen n p r : UInt32) (salt : String)
  | pbkdf2 (c dklen : UInt32) (prf salt : String)
  deriving DecidableEq

structure CryptoParams where
  cipher : String
  cipherparams : CipherParams
  ciphertext : String
  kdf : String
  kdfparams : KdfParams
  mac : String
  deriving DecidableEq

structure KeyFile where
  id : String
  version : UInt32
  address : String
  crypto : CryptoParams
  deriving DecidableEq

/-- `map_err(|e| AccountError::KeystoreError(e.to_string()))?`. -/
def keystoreCheck : Option String → Call AccountError Unit
  | none => .ok ()
  | some e => Call.fail (.keystoreError e)

def decodeField (text : String) : Call AccountError Bytes :=
  match Hex.decode text with
  | some bytes => .ok bytes
  | none => Call.fail .invalidKeyFile

def secpResult {α : Type} : Except String α → Call AccountError α :=
  Except.mapError fun e => .err (.secp256k1Error e)

def cipherBlock (bytes : Bytes) : Checked (List.Vector UInt8 16) :=
  if h : bytes.length = 16 then .ok ⟨bytes, h⟩ else .error .assertion

def log2 (n : UInt32) : UInt8 := .ofNat n.toNat.log2

section
variable [Kdf]

/-- `ScryptParams::new` and `scrypt`, as both functions call them. -/
def deriveScrypt (password : String) (salt : Bytes) (params : ScryptParams) :
    Call AccountError (List.Vector UInt8 params.len) := do
  keystoreCheck (Kdf.paramsError params)
  keystoreCheck (Kdf.lengthError params.len)
  return Kdf.scrypt (asBytes password) salt params params.len

def KdfParams.deriveKey (self : KdfParams) (password : String) : Call AccountError Bytes :=
  match self with
  | .scrypt dklen n p r salt => do
    let salt ← decodeField salt
    let derivedKey ← deriveScrypt password salt ⟨log2 n, r, p, dklen.toNat⟩
    return derivedKey.toList
  | .pbkdf2 c dklen _ salt => do
    let salt ← decodeField salt
    return (Kdf.pbkdf2HmacSha256 (asBytes password) salt c dklen.toNat).toList

variable [Crypto] [Secp256k1] [SecretBytes] [Aes128]

/-- The half of the derived key that encrypts. -/
def cipherKey (derivedKey : List.Vector UInt8 32) : List.Vector UInt8 16 :=
  ⟨derivedKey.toList.take 16, by simp⟩

/-- The checksum of a key file, taken with the other half of the derived key. -/
def macOf (derivedKey : List.Vector UInt8 32) (ciphertext : Bytes) : H256 :=
  keccak256 (derivedKey.toList.drop 16 ++ ciphertext)

namespace KeyFile

def encrypt (account : Account) (password : String) (salt : List.Vector UInt8 32)
    (iv : List.Vector UInt8 16) (id : String) : Call AccountError KeyFile := do
  let derivedKey ← deriveScrypt password salt.toList ⟨14, 8, 1, 32⟩
  let ciphertext := applyKeystream (cipherKey derivedKey) iv (secretBytes account.privateKey).toList
  let mac := macOf derivedKey ciphertext
  return {
    id
    version := 3
    address := Hex.encode account.address.toList
    crypto := {
      cipher := "aes-128-ctr"
      cipherparams := { iv := Hex.encode iv.toList }
      ciphertext := Hex.encode ciphertext
      kdf := "scrypt"
      kdfparams := .scrypt 32 8192 1 8 (Hex.encode salt.toList)
      mac := Hex.encode mac.toList } }

def decrypt (self : KeyFile) (password : String) : Call AccountError Account :=
  if self.version ≠ 3 then Call.fail .invalidKeyFile
  else do
    let derivedKey ← self.crypto.kdfparams.deriveKey password
    let ciphertext ← decodeField self.crypto.ciphertext
    let macKey ← slice derivedKey 16 32
    let mac := keccak256 (macKey ++ ciphertext)
    let expectedMac ← decodeField self.crypto.mac
    if mac.toList ≠ expectedMac then Call.fail .invalidPassword
    else
      let iv ← decodeField self.crypto.cipherparams.iv
      let key ← slice derivedKey 0 16
      let key ← cipherBlock key
      let iv ← cipherBlock iv
      let secretKey ← secpResult (secretFromSlice (applyKeystream key iv ciphertext))
      return Account.fromPrivateKey secretKey

def withCost (self : KeyFile) (cost : UInt32) : KeyFile :=
  match self.crypto.kdfparams with
  | .scrypt dklen _ p r salt =>
    { self with crypto := { self.crypto with kdfparams := .scrypt dklen cost p r salt } }
  | .pbkdf2 .. => self

def scryptKey (password : String) (salt : List.Vector UInt8 32) (logN : UInt8) :
    List.Vector UInt8 32 :=
  Kdf.scrypt (asBytes password) salt.toList ⟨logN, 8, 1, 32⟩ 32

end KeyFile

end

@[simp] theorem decodeField_encode : decodeField (encode data) = .ok data := by
  rw [decodeField, decode_encode]

@[simp] theorem cipherBlock_toList :
    cipherBlock block.toList = .ok block := dif_pos block.toList_length

theorem slice_cipherKey : slice derivedKey.toList 0 16 = .ok (cipherKey derivedKey).toList := by
  rw [slice, if_pos (by simp)]
  rfl

theorem slice_macKey (derivedKey : List.Vector UInt8 32) :
    slice derivedKey.toList 16 32 = .ok (derivedKey.toList.drop 16) := by
  rw [slice, if_pos (by simp), take_of_length_le (by simp)]

namespace KeyFile

section
variable [Kdf] [LawfulKdf]

theorem deriveScrypt_eq_ok (hlogN : logN ∈ [13, 14]) :
    deriveScrypt password salt.toList ⟨logN, 8, 1, 32⟩ = .ok (scryptKey password salt logN) := by
  simp only [deriveScrypt, LawfulKdf.paramsError_eq logN hlogN, LawfulKdf.lengthError_eq]
  rfl

variable [Crypto] [Secp256k1] [SecretBytes] [Aes128]
variable (account : Account) (password : String) (salt : List.Vector UInt8 32)
  (iv : List.Vector UInt8 16) (id : String)

def sealedKey : Bytes :=
  applyKeystream (cipherKey (scryptKey password salt 14)) iv (secretBytes account.privateKey).toList

/-- What `decrypt` does with the file of `encrypt`, if it states the cost 2 to the `logN`. -/
def reopen (logN : UInt8) : Call AccountError Account :=
  let ciphertext := sealedKey account password salt iv
  let derivedKey := scryptKey password salt logN
  if macOf derivedKey ciphertext ≠ macOf (scryptKey password salt 14) ciphertext then
    Call.fail .invalidPassword
  else do
    let privateKey := applyKeystream (cipherKey derivedKey) iv ciphertext
    let secretKey ← secpResult (secretFromSlice privateKey)
    return Account.fromPrivateKey secretKey

theorem encrypt_eq_ok : encrypt account password salt iv id = .ok {
    id
    version := 3
    address := encode account.address.toList
    crypto := {
      cipher := "aes-128-ctr"
      cipherparams := { iv := encode iv.toList }
      ciphertext := encode (sealedKey account password salt iv)
      kdf := "scrypt"
      kdfparams := .scrypt 32 8192 1 8 (encode salt.toList)
      mac := encode (macOf (scryptKey password salt 14)
        (sealedKey account password salt iv)).toList } } := by
  rw [encrypt, deriveScrypt_eq_ok (by decide)]
  rfl

theorem decrypt_withCost (cost : UInt32) (hlogN : log2 cost ∈ [13, 14]) :
    (do decrypt ((← encrypt account password salt iv id).withCost cost) password) =
      reopen account password salt iv (log2 cost) := by
  rw [encrypt_eq_ok, Call.ok_bind, withCost, decrypt, if_neg (by simp)]
  simp only [KdfParams.deriveKey, decodeField_encode, Call.ok_bind]
  rw [show (32 : UInt32).toNat = 32 from rfl, deriveScrypt_eq_ok hlogN, reopen]
  generalize scryptKey password salt (log2 cost) = derivedKey
  have hinj : ∀ a b : H256, a.toList = b.toList ↔ a = b := fun _ _ => Subtype.ext_iff.symm
  simp only [Call.ok_bind, pure_bind, slice_macKey, slice_cipherKey, cipherBlock_toList,
    Call.liftM_ok, ne_eq, hinj]
  congr

theorem decrypt_encrypt :
    (do decrypt (← encrypt account password salt iv id) password) =
      reopen account password salt iv 13 := by
  have h := decrypt_withCost account password salt iv id 8192 (by decide)
  rwa [encrypt_eq_ok, Call.ok_bind] at h ⊢

/-- `decrypt` gives back the key and the address of the account. -/
def Restores (account : Account) (result : Call AccountError Account) : Prop :=
  ∃ restored, result = .ok restored ∧ restored.privateKey = account.privateKey ∧
    restored.address = account.address

omit [Kdf] [LawfulKdf] [SecretBytes] [Aes128] in
theorem restores_fromPrivateKey_iff :
    Restores account (do return Account.fromPrivateKey (← secpResult res)) ↔
      res = .ok account.privateKey := by
  cases res with
  | error e =>
    constructor
    · rintro ⟨_, h, -⟩
      cases h
    · intro h
      cases h
  | ok key =>
    constructor
    · rintro ⟨_, h, hkey, -⟩
      cases h
      exact congrArg _ hkey
    · intro h
      cases h
      refine ⟨_, rfl, rfl, ?_⟩
      rw [account.address_eq, account.publicKey_eq]
      rfl

variable [LawfulSecretBytes]

omit [LawfulKdf] in
theorem restores_reopen_iff (logN : UInt8) :
    Restores account (reopen account password salt iv logN) ↔
      macOf (scryptKey password salt logN) (sealedKey account password salt iv) =
        macOf (scryptKey password salt 14) (sealedKey account password salt iv) ∧
      ∀ i < 32, Aes128.keystream (cipherKey (scryptKey password salt logN)) iv i =
        Aes128.keystream (cipherKey (scryptKey password salt 14)) iv i := by
  rw [reopen]
  split
  case isTrue hmac =>
    refine ⟨fun h => ?_, fun h => absurd h.1 hmac⟩
    obtain ⟨_, h, -⟩ := h
    cases h
  case isFalse hmac =>
    rw [restores_fromPrivateKey_iff, LawfulSecretBytes.secretFromSlice_eq_ok, sealedKey,
      applyKeystream_eq_iff, List.Vector.toList_length]
    exact (and_iff_right (not_ne_iff.mp hmac)).symm

/-- `encrypt` derives the key with `log_n` 14 and `decrypt` with 13. The account comes back exactly
if both keys give the same checksum and the same key stream. -/
theorem restores_encrypt_iff :
    Restores account (do decrypt (← encrypt account password salt iv id) password) ↔
      macOf (scryptKey password salt 13) (sealedKey account password salt iv) =
        macOf (scryptKey password salt 14) (sealedKey account password salt iv) ∧
      ∀ i < 32, Aes128.keystream (cipherKey (scryptKey password salt 13)) iv i =
        Aes128.keystream (cipherKey (scryptKey password salt 14)) iv i := by
  rw [decrypt_encrypt, restores_reopen_iff]

end

namespace Sample
open Accounts.Sample Horner

scoped instance : SecretBytes where
  secretBytes key := ⟨key :: List.replicate 31 0, rfl⟩
  secretFromSlice bytes :=
    if bytes = bytes.headD 0 :: List.replicate 31 0 then .ok (bytes.headD 0)
    else .error "InvalidSecretKey"

scoped instance : LawfulSecretBytes where
  secretFromSlice_eq_ok {bytes key} := by
    constructor
    · intro h
      obtain ⟨hbytes, hkey⟩ := ite_eq_iff.mp h |>.resolve_right (fun h => nomatch h.2)
      cases hkey
      exact hbytes
    · intro h
      cases h
      exact if_pos rfl

scoped instance : Kdf where
  paramsError _ := none
  lengthError _ := none
  scrypt _ _ params len := ⟨List.replicate len params.logN, List.length_replicate⟩
  pbkdf2HmacSha256 _ _ _ len := ⟨List.replicate len 0, List.length_replicate⟩

scoped instance : LawfulKdf := ⟨fun _ _ => rfl, rfl⟩

scoped instance : Aes128 := ⟨fun key _ _ => key.toList.headD 0⟩

def iv : List.Vector UInt8 16 := ⟨List.replicate 16 0, rfl⟩

theorem not_restores_five : ¬Restores (.fromPrivateKey (5 : UInt8))
    (do decrypt (← encrypt (.fromPrivateKey (5 : UInt8)) "secret" H256.zero iv "id") "secret") := by
  rw [restores_encrypt_iff]
  intro h
  exact absurd (h.2 0 (by decide)) (by decide)

/-- The right password is refused. -/
theorem decrypt_encrypt_rejected :
    (do decrypt (← encrypt (.fromPrivateKey (5 : UInt8)) "secret" H256.zero iv "id") "secret") =
      .error (.err .invalidPassword) := by
  rw [decrypt_encrypt, reopen]
  exact if_pos (by decide +kernel)

end Sample

end KeyFile

end EthereumRust.Accounts
