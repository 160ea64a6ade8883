import EthereumRust.Crypto

/-!
# The handshake of RLPx (`crates/network`: `rlpx.rs`)

The auth message of the initiator and the ack message of the responder are encrypted for the
receiver, who reads the keys and the nonce of the sender from them.

Encryption is undone by the receiver, so the exchange always completes (`exchange_eq`). But the auth
message has the ephemeral key of the initiator only inside a signature, from which the responder
does not recover it. And each side hashes its own nonce before the other one.

The primitives are parameters. AES in counter mode adds a key stream to the data, and a MAC is given
by its key and the bytes that it has absorbed.
-/

namespace EthereumRust.Network

open Rust Rust.Method List

inductive NetworkError where
  | ioError
  | rlpError
  | handshakeFailed (message : String)
  | invalidMessage (message : String)
  | peerDisconnected (message : String)
  | protocolError (message : String)
  | cryptoError (message : String)
  | timeout
  deriving DecidableEq

/-- What is used of the crate `secp256k1`, with errors given by their texts. -/
class Secp256k1 where
  SecretKey : Type
  PublicKey : Type
  fromSecretKey : SecretKey → PublicKey
  mulTweak : PublicKey → SecretKey → Except String PublicKey
  serializeUncompressed : PublicKey → List.Vector UInt8 65
  fromSlice : Bytes → Except String PublicKey
  signEcdsaRecoverable : H256 → SecretKey → List.Vector UInt8 64 × Fin 4
  recoveryId : UInt8 → Except String (Fin 4)
  fromCompact : Bytes → Fin 4 → Except String Unit

export Secp256k1 (SecretKey PublicKey fromSecretKey mulTweak serializeUncompressed fromSlice
  signEcdsaRecoverable recoveryId fromCompact)

def keyBytes [Secp256k1] (key : PublicKey) : Bytes := (serializeUncompressed key).toList.drop 1

theorem length_keyBytes [Secp256k1] (key : PublicKey) : (keyBytes key).length = 64 := by
  rw [keyBytes, length_drop, List.Vector.toList_length]

/-- The laws of `secp256k1` that the handshake rests on. -/
class LawfulSecp256k1 [Secp256k1] : Prop where
  mulTweak_comm : ∀ a b, ∃ point,
    mulTweak (fromSecretKey a) b = .ok point ∧ mulTweak (fromSecretKey b) a = .ok point
  fromSlice_keyBytes : ∀ key, fromSlice (4 :: keyBytes key) = .ok key
  recoveryId_sign : ∀ message key,
    recoveryId (.ofNat (signEcdsaRecoverable message key).2) =
      .ok (signEcdsaRecoverable message key).2
  fromCompact_sign : ∀ message key,
    fromCompact (signEcdsaRecoverable message key).1.toList (signEcdsaRecoverable message key).2 =
      .ok ()

class Sha256 where
  sha256 : Bytes → H256

export Sha256 (sha256)

class Aes256 where
  keystream : H256 → Nat → UInt8

structure Aes256Ctr where
  key : H256
  position : Nat
  deriving DecidableEq

namespace Aes256Ctr

def new (key : H256) : Aes256Ctr := ⟨key, 0⟩

def applyKeystream [Aes256] (self : Aes256Ctr) (data : Bytes) : Bytes × Aes256Ctr :=
  ((data.zipIdx self.position).map fun byte => byte.1 ^^^ Aes256.keystream self.key byte.2,
    { self with position := self.position + data.length })

theorem applyKeystream_applyKeystream [Aes256] (s : Aes256Ctr) :
    (s.applyKeystream (s.applyKeystream data).1).1 = data := by
  refine ext_getElem (by simp [applyKeystream]) fun i _ _ => ?_
  simp only [applyKeystream, getElem_map, getElem_zipIdx]
  rw [UInt8.xor_assoc, UInt8.xor_self, UInt8.xor_zero]

end Aes256Ctr

structure Hmac where
  key : Bytes
  absorbed : Bytes
  deriving DecidableEq

namespace Hmac

def newFromSlice (key : Bytes) : Hmac := ⟨key, []⟩

def update (self : Hmac) (data : Bytes) : Hmac := { self with absorbed := self.absorbed ++ data }

end Hmac

def cryptoResult {α : Type} : Except String α → Except NetworkError α :=
  Except.mapError .cryptoError

def xorBytes (a b : Bytes) : Bytes := List.zipWith (· ^^^ ·) a b

section
variable [Secp256k1] [Sha256]

def computeSharedSecret (privateKey : SecretKey) (publicKey : PublicKey) :
    Except NetworkError H256 := do
  let sharedPoint ← cryptoResult (mulTweak publicKey privateKey)
  return sha256 ((keyBytes sharedPoint).take 32)

variable [Aes256]

def eciesEncrypt (publicKey : PublicKey) (data : Bytes) (ephemeralKey : SecretKey) :
    Except NetworkError Bytes := do
  let sharedSecret ← computeSharedSecret ephemeralKey publicKey
  let cipher := Aes256Ctr.new (sha256 sharedSecret.toList)
  return keyBytes (fromSecretKey ephemeralKey) ++ (cipher.applyKeystream data).1

def eciesDecrypt (privateKey : SecretKey) (data : Bytes) : Except NetworkError Bytes :=
  if data.length < 64 then .error (.cryptoError "Invalid ECIES data")
  else do
    let ephemeralPubkey ← cryptoResult (fromSlice (4 :: data.take 64))
    let sharedSecret ← computeSharedSecret privateKey ephemeralPubkey
    let cipher := Aes256Ctr.new (sha256 sharedSecret.toList)
    return (cipher.applyKeystream (data.drop 64)).1

end

def protocolVersion : UInt8 := 5

structure RLPxHandshake [Secp256k1] where
  staticKey : SecretKey
  ephemeralKey : SecretKey
  nonce : H256
  remoteId : Option PublicKey
  remoteEphemeral : Option PublicKey
  remoteNonce : Option H256
  authSent : Option Bytes
  ackSent : Option Bytes
  authReceived : Option Bytes
  ackReceived : Option Bytes

structure Secrets where
  aesSecret : H256
  macSecret : H256
  egressMac : Hmac
  ingressMac : Hmac
  deriving DecidableEq

namespace RLPxHandshake

section
variable [Secp256k1]

def new (staticKey : SecretKey) (remoteId : Option PublicKey) (ephemeralKey : SecretKey)
    (nonce : H256) : RLPxHandshake where
  staticKey
  ephemeralKey
  nonce
  remoteId
  remoteEphemeral := none
  remoteNonce := none
  authSent := none
  ackSent := none
  authReceived := none
  ackReceived := none

def authBody (self : RLPxHandshake) (msgHash : H256) : Bytes :=
  let (sigBytes, recoveryId) := signEcdsaRecoverable msgHash self.ephemeralKey
  sigBytes.toList ++ [.ofNat recoveryId] ++ keyBytes (fromSecretKey self.staticKey) ++
    self.nonce.toList ++ [protocolVersion]

def ackBody (self : RLPxHandshake) : Bytes :=
  keyBytes (fromSecretKey self.ephemeralKey) ++ self.nonce.toList ++ [protocolVersion]

def unsupportedVersion (version : UInt8) : NetworkError :=
  .handshakeFailed ("Unsupported protocol version: " ++ toString version)

def readAuth (sig pubkeyBytes nonce : Bytes) : Method RLPxHandshake NetworkError Unit := do
  let id ← byteAt sig 64
  let id ← result (cryptoResult (recoveryId id))
  let _ ← result (cryptoResult (fromCompact (sig.take 64) id))
  let remoteId ← result (cryptoResult (fromSlice (4 :: pubkeyBytes)))
  update ({ · with remoteId := some remoteId })
  let nonce ← H256.fromSlice nonce
  update ({ · with remoteNonce := some nonce })

def readAck (ephemeralBytes nonce : Bytes) : Method RLPxHandshake NetworkError Unit := do
  let remoteEphemeral ← result (cryptoResult (fromSlice (4 :: ephemeralBytes)))
  update ({ · with remoteEphemeral := some remoteEphemeral })
  let nonce ← H256.fromSlice nonce
  update ({ · with remoteNonce := some nonce })

/-- `handle_auth_message`, of a decrypted message. The check of its length leaves out half of the
static key. -/
def parseAuth (decrypted : Bytes) : Method RLPxHandshake NetworkError Unit :=
  if decrypted.length < 65 + 32 + 32 + 1 then fail (.handshakeFailed "Auth message too short")
  else do
    let sig ← slice decrypted 0 65
    let pubkeyBytes ← slice decrypted 65 (65 + 64)
    let nonce ← slice decrypted (65 + 64) (65 + 64 + 32)
    let version ← byteAt decrypted (65 + 64 + 32)
    if version ≠ protocolVersion then fail (unsupportedVersion version)
    else readAuth sig pubkeyBytes nonce

def parseAck (decrypted : Bytes) : Method RLPxHandshake NetworkError Unit :=
  if decrypted.length < 64 + 32 + 1 then fail (.handshakeFailed "Ack message too short")
  else do
    let ephemeralBytes ← slice decrypted 0 64
    let nonce ← slice decrypted 64 (64 + 32)
    let version ← byteAt decrypted (64 + 32)
    if version ≠ protocolVersion then fail (unsupportedVersion version)
    else readAck ephemeralBytes nonce

variable [Sha256] [Aes256]

def createAuthMessage (eciesKey : SecretKey) : Method RLPxHandshake NetworkError Bytes := do
  let self ← read id
  match self.remoteId with
  | none => fail (.handshakeFailed "Remote ID not set")
  | some remoteId => do
    let sharedSecret ← result (computeSharedSecret self.staticKey remoteId)
    let encrypted ← result (eciesEncrypt remoteId (self.authBody sharedSecret) eciesKey)
    update ({ · with authSent := some encrypted })
    return encrypted

def handleAuthMessage (data : Bytes) : Method RLPxHandshake NetworkError Unit := do
  update ({ · with authReceived := some data })
  let staticKey ← read (·.staticKey)
  let decrypted ← result (eciesDecrypt staticKey data)
  parseAuth decrypted

def createAckMessage (eciesKey : SecretKey) : Method RLPxHandshake NetworkError Bytes := do
  let self ← read id
  match self.remoteId with
  | none => fail (.handshakeFailed "Remote ID not set")
  | some remoteId => do
    let encrypted ← result (eciesEncrypt remoteId self.ackBody eciesKey)
    update ({ · with ackSent := some encrypted })
    return encrypted

def handleAckMessage (data : Bytes) : Method RLPxHandshake NetworkError Unit := do
  update ({ · with ackReceived := some data })
  let staticKey ← read (·.staticKey)
  let decrypted ← result (eciesDecrypt staticKey data)
  parseAck decrypted

def macs (self : RLPxHandshake) (macSecret remoteNonce : H256) : Hmac × Hmac :=
  let mac := Hmac.newFromSlice macSecret.toList
  let own := mac.update (xorBytes macSecret.toList self.nonce.toList)
  let remote := mac.update (xorBytes macSecret.toList remoteNonce.toList)
  match self.authSent, self.ackReceived with
  | some authSent, some ackReceived => (own.update authSent, remote.update ackReceived)
  | _, _ =>
    match self.authReceived, self.ackSent with
    | some authReceived, some ackSent => (own.update ackSent, remote.update authReceived)
    | _, _ => (mac, mac)

variable [Crypto]

/-- What `derive_secrets` computes from the secret that the ephemeral keys share. -/
def secretsFrom (self : RLPxHandshake) (ephemeralShared remoteNonce : H256) : Secrets :=
  let aesSecret := sha256 (ephemeralShared.toList ++ self.nonce.toList ++ remoteNonce.toList)
  let macSecret := keccak256 aesSecret.toList
  let (egressMac, ingressMac) := self.macs macSecret remoteNonce
  { aesSecret, macSecret, egressMac, ingressMac }

def deriveSecrets (self : RLPxHandshake) : Except NetworkError Secrets :=
  match self.remoteEphemeral with
  | none => .error (.handshakeFailed "Remote ephemeral not set")
  | some remoteEphemeral =>
    match self.remoteNonce with
    | none => .error (.handshakeFailed "Remote nonce not set")
    | some remoteNonce => do
      let ephemeralShared ← computeSharedSecret self.ephemeralKey remoteEphemeral
      return self.secretsFrom ephemeralShared remoteNonce

end

section
variable [Secp256k1] [Sha256] [Aes256]

/-- Auth and ack, sent and handled without loss. -/
def exchange (initiator responder : RLPxHandshake) (authKey ackKey : SecretKey) :
    Option (RLPxHandshake × RLPxHandshake) :=
  match createAuthMessage authKey initiator with
  | .ok auth initiator =>
    match handleAuthMessage auth responder with
    | .ok _ responder =>
      match createAckMessage ackKey responder with
      | .ok ack responder =>
        match handleAckMessage ack initiator with
        | .ok _ initiator => some (initiator, responder)
        | _ => none
      | _ => none
    | _ => none
  | _ => none

/-- Both sides derive the same secrets, and what one sends is what the other expects. -/
def Agree [Crypto] (initiator responder : RLPxHandshake) : Prop :=
  ∃ secrets secrets', initiator.deriveSecrets = .ok secrets ∧
    responder.deriveSecrets = .ok secrets' ∧
    secrets.aesSecret = secrets'.aesSecret ∧ secrets.macSecret = secrets'.macSecret ∧
    secrets.egressMac = secrets'.ingressMac ∧ secrets'.egressMac = secrets.ingressMac

variable [LawfulSecp256k1]

omit [Aes256] in
theorem exists_sharedSecret (a b : SecretKey) : ∃ secret,
    computeSharedSecret a (fromSecretKey b) = .ok secret ∧
      computeSharedSecret b (fromSecretKey a) = .ok secret := by
  obtain ⟨point, hab, hba⟩ := LawfulSecp256k1.mulTweak_comm a b
  refine ⟨sha256 ((keyBytes point).take 32), ?_, ?_⟩
  · rw [computeSharedSecret, hba]
    rfl
  · rw [computeSharedSecret, hab]
    rfl

theorem eciesDecrypt_eciesEncrypt (ephemeralKey : SecretKey) :
    ∃ encrypted, eciesEncrypt (fromSecretKey key) data ephemeralKey = .ok encrypted ∧
      eciesDecrypt key encrypted = .ok data := by
  obtain ⟨secret, hsec, hsec'⟩ := exists_sharedSecret ephemeralKey key
  have hlen := length_keyBytes (fromSecretKey ephemeralKey)
  refine ⟨keyBytes (fromSecretKey ephemeralKey) ++
    ((Aes256Ctr.new (sha256 secret.toList)).applyKeystream data).1, ?_, ?_⟩
  · rw [eciesEncrypt, hsec]
    rfl
  · rw [eciesDecrypt, if_neg, take_left' hlen, drop_left' hlen, LawfulSecp256k1.fromSlice_keyBytes]
    · change (computeSharedSecret key _ >>= fun _ => _) = _
      rw [hsec']
      exact congrArg Except.ok (Aes256Ctr.applyKeystream_applyKeystream _)
    · rw [length_append]
      omega

section
variable {nonce : Bytes}

omit [Sha256] [Aes256] [LawfulSecp256k1] in
theorem parseAuth_append (hsig : sig.length = 65) (hkey : key.length = 64)
    (hnon : nonce.length = 32) :
    parseAuth (sig ++ key ++ nonce ++ [protocolVersion]) s = readAuth sig key nonce s := by
  have hbody : Remains (sig ++ key ++ nonce ++ [protocolVersion]) 0
      (sig ++ (key ++ (nonce ++ [protocolVersion]))) := ⟨[], by simp, rfl⟩
  have hlen : (sig ++ key ++ nonce ++ [protocolVersion]).length = 162 := by
    simp [hsig, hkey, hnon]
  generalize sig ++ key ++ nonce ++ [protocolVersion] = body at hbody hlen ⊢
  obtain ⟨hsig, hbody⟩ := hbody.slice_append (show _ = 65 by omega)
  obtain ⟨hkey, hbody⟩ := hbody.slice_append (show _ = 65 + 64 by omega)
  obtain ⟨hnon, hbody⟩ := hbody.slice_append (show _ = 65 + 64 + 32 by omega)
  rw [parseAuth, if_neg (by omega), bind_checked_of_ok hsig, bind_checked_of_ok hkey,
    bind_checked_of_ok hnon, bind_checked_of_ok hbody.byteAt_eq, if_neg (not_not.mpr rfl)]

omit [Sha256] [Aes256] [LawfulSecp256k1] in
theorem parseAck_append (hkey : key.length = 64) (hnon : nonce.length = 32) :
    parseAck (key ++ nonce ++ [protocolVersion]) s = readAck key nonce s := by
  have hbody : Remains (key ++ nonce ++ [protocolVersion]) 0
      (key ++ (nonce ++ [protocolVersion])) := ⟨[], by simp, rfl⟩
  have hlen : (key ++ nonce ++ [protocolVersion]).length = 97 := by
    simp [hkey, hnon]
  generalize key ++ nonce ++ [protocolVersion] = body at hbody hlen ⊢
  obtain ⟨hkey, hbody⟩ := hbody.slice_append (show _ = 64 by omega)
  obtain ⟨hnon, hbody⟩ := hbody.slice_append (show _ = 64 + 32 by omega)
  rw [parseAck, if_neg (by omega), bind_checked_of_ok hkey, bind_checked_of_ok hnon,
    bind_checked_of_ok hbody.byteAt_eq, if_neg (not_not.mpr rfl)]

omit [Sha256] [Aes256] in
theorem parseAuth_authBody (sender : RLPxHandshake) :
    parseAuth (sender.authBody msgHash) s = .ok () { s with
      remoteId := some (fromSecretKey sender.staticKey)
      remoteNonce := some sender.nonce } := by
  have hid := LawfulSecp256k1.recoveryId_sign msgHash sender.ephemeralKey
  have hcom := LawfulSecp256k1.fromCompact_sign msgHash sender.ephemeralKey
  have hkey := LawfulSecp256k1.fromSlice_keyBytes (fromSecretKey sender.staticKey)
  unfold authBody
  generalize signEcdsaRecoverable msgHash sender.ephemeralKey = sig at hid hcom ⊢
  obtain ⟨sigBytes, id⟩ := sig
  have hsig : (sigBytes.toList ++ [UInt8.ofNat id]).length = 65 := by simp
  have hbyte : byteAt (sigBytes.toList ++ [UInt8.ofNat id]) 64 = .ok (.ofNat id) := by
    simp [byteAt]
  have htake : (sigBytes.toList ++ [UInt8.ofNat id]).take 64 = sigBytes.toList :=
    take_left' sigBytes.toList_length
  rw [parseAuth_append hsig (length_keyBytes _) sender.nonce.toList_length, readAuth,
    bind_checked_of_ok hbyte, bind_result_of_ok (congrArg cryptoResult hid), htake,
    bind_result_of_ok (congrArg cryptoResult hcom),
    bind_result_of_ok (congrArg cryptoResult hkey), bind_update,
    bind_checked_of_ok (H256.fromSlice_toList _)]
  rfl

omit [Sha256] [Aes256] in
theorem parseAck_ackBody (sender : RLPxHandshake) :
    parseAck sender.ackBody s = .ok () { s with
      remoteEphemeral := some (fromSecretKey sender.ephemeralKey)
      remoteNonce := some sender.nonce } := by
  have hkey := LawfulSecp256k1.fromSlice_keyBytes (fromSecretKey sender.ephemeralKey)
  rw [ackBody, parseAck_append (length_keyBytes _) sender.nonce.toList_length, readAck,
    bind_result_of_ok (congrArg cryptoResult hkey), bind_update,
    bind_checked_of_ok (H256.fromSlice_toList _)]
  rfl

theorem createAuthMessage_eq (h : s.remoteId = some (fromSecretKey remoteKey)) :
    ∃ auth msgHash, createAuthMessage eciesKey s = .ok auth { s with authSent := some auth } ∧
      eciesDecrypt remoteKey auth = .ok (s.authBody msgHash) := by
  obtain ⟨msgHash, hsec, -⟩ := exists_sharedSecret s.staticKey remoteKey
  obtain ⟨auth, henc, hdec⟩ := eciesDecrypt_eciesEncrypt eciesKey
  refine ⟨auth, msgHash, ?_, hdec⟩
  rw [createAuthMessage, bind_read, id, h]
  change (result _ >>= fun _ => _ : Method _ _ _) s = _
  rw [bind_result_of_ok hsec, bind_result_of_ok henc, ← h]
  rfl

theorem createAckMessage_eq (h : s.remoteId = some (fromSecretKey remoteKey)) :
    ∃ ack, createAckMessage eciesKey s = .ok ack { s with ackSent := some ack } ∧
      eciesDecrypt remoteKey ack = .ok s.ackBody := by
  obtain ⟨ack, henc, hdec⟩ := eciesDecrypt_eciesEncrypt eciesKey
  refine ⟨ack, ?_, hdec⟩
  rw [createAckMessage, bind_read, id, h]
  change (result _ >>= fun _ => _ : Method _ _ _) s = _
  rw [bind_result_of_ok henc, ← h]
  rfl

theorem handleAuthMessage_eq {sender : RLPxHandshake}
    (h : eciesDecrypt s.staticKey auth = .ok (sender.authBody msgHash)) :
    handleAuthMessage auth s = .ok () { s with
      authReceived := some auth
      remoteId := some (fromSecretKey sender.staticKey)
      remoteNonce := some sender.nonce } := by
  rw [handleAuthMessage, bind_update, bind_read, bind_result_of_ok h, parseAuth_authBody]

theorem handleAckMessage_eq {sender : RLPxHandshake} {ack : Bytes}
    (h : eciesDecrypt s.staticKey ack = .ok sender.ackBody) :
    handleAckMessage ack s = .ok () { s with
      ackReceived := some ack
      remoteEphemeral := some (fromSecretKey sender.ephemeralKey)
      remoteNonce := some sender.nonce } := by
  rw [handleAckMessage, bind_update, bind_read, bind_result_of_ok h, parseAck_ackBody]

end

/-- The exchange succeeds, and the responder learns no ephemeral key. -/
theorem exchange_eq (initiator responder : RLPxHandshake)
    (h : initiator.remoteId = some (fromSecretKey responder.staticKey))
    (authKey ackKey : SecretKey) :
    ∃ auth ack, exchange initiator responder authKey ackKey = some
      ({ initiator with
          authSent := some auth
          ackReceived := some ack
          remoteEphemeral := some (fromSecretKey responder.ephemeralKey)
          remoteNonce := some responder.nonce },
        { responder with
          authReceived := some auth
          ackSent := some ack
          remoteId := some (fromSecretKey initiator.staticKey)
          remoteNonce := some initiator.nonce }) := by
  obtain ⟨auth, msgHash, hcre, hauth⟩ := createAuthMessage_eq h
  have hhan := handleAuthMessage_eq hauth
  obtain ⟨ack, hcre', hack⟩ := createAckMessage_eq (s := { responder with
    authReceived := some auth
    remoteId := some (fromSecretKey initiator.staticKey)
    remoteNonce := some initiator.nonce }) rfl
  have hhan' := handleAckMessage_eq (s := { initiator with authSent := some auth }) hack
  refine ⟨auth, ack, ?_⟩
  rw [exchange, hcre]
  dsimp only
  rw [hhan]
  dsimp only
  rw [hcre']
  dsimp only
  rw [hhan']

/-- What two sides have from an exchange, the responder's copy of the initiator's ephemeral key
apart. -/
structure Exchanged (initiator responder : RLPxHandshake) (auth ack : Bytes) : Prop where
  remoteEphemeral : initiator.remoteEphemeral = some (fromSecretKey responder.ephemeralKey)
  initiatorNonce : responder.remoteNonce = some initiator.nonce
  responderNonce : initiator.remoteNonce = some responder.nonce
  authSent : initiator.authSent = some auth
  ackReceived : initiator.ackReceived = some ack
  authReceived : responder.authReceived = some auth
  ackSent : responder.ackSent = some ack
  noAuthSent : responder.authSent = none

section

omit [Sha256] [Aes256] [LawfulSecp256k1] in
theorem Exchanged.macs_eq {ack : Bytes} (h : Exchanged initiator responder auth ack) :
    responder.macs macSecret initiator.nonce = (initiator.macs macSecret responder.nonce).swap := by
  rw [macs, macs, h.authSent, h.ackReceived, h.noAuthSent, h.authReceived, h.ackSent]
  rfl

variable [Crypto]

omit [Aes256] [LawfulSecp256k1] in
theorem deriveSecrets_eq_ok {s : RLPxHandshake} {remoteNonce : H256}
    (hnon : s.remoteNonce = some remoteNonce) :
    s.deriveSecrets = .ok secrets ↔ ∃ key secret, s.remoteEphemeral = some key ∧
      computeSharedSecret s.ephemeralKey key = .ok secret ∧
      secrets = s.secretsFrom secret remoteNonce := by
  unfold deriveSecrets
  cases s.remoteEphemeral with
  | none => simp
  | some key =>
    rw [hnon]
    dsimp only
    constructor
    · intro h
      cases hsec : computeSharedSecret s.ephemeralKey key with
      | error e =>
        rw [hsec] at h
        cases h
      | ok secret =>
        rw [hsec] at h
        cases h
        exact ⟨key, secret, rfl, hsec, rfl⟩
    · rintro ⟨_, secret, hkey, hsec, rfl⟩
      cases hkey
      rw [hsec]
      rfl

omit [Aes256] [LawfulSecp256k1] in
theorem Exchanged.agree_iff {ack : Bytes} (h : Exchanged initiator responder auth ack)
    (hsec : computeSharedSecret initiator.ephemeralKey
      (fromSecretKey responder.ephemeralKey) = .ok secret) :
    Agree initiator responder ↔ ∃ key secret', responder.remoteEphemeral = some key ∧
      computeSharedSecret responder.ephemeralKey key = .ok secret' ∧
      sha256 (secret.toList ++ initiator.nonce.toList ++ responder.nonce.toList) =
        sha256 (secret'.toList ++ responder.nonce.toList ++ initiator.nonce.toList) := by
  constructor
  · rintro ⟨secrets, secrets', hini, hres, haes, -⟩
    obtain ⟨key, _, hkey, hshr, rfl⟩ := (deriveSecrets_eq_ok h.responderNonce).mp hini
    obtain ⟨key', secret', hkey', hshr', rfl⟩ := (deriveSecrets_eq_ok h.initiatorNonce).mp hres
    rw [h.remoteEphemeral] at hkey
    cases hkey
    rw [hsec] at hshr
    cases hshr
    exact ⟨key', secret', hkey', hshr', haes⟩
  · rintro ⟨key, secret', hkey, hshr, haes⟩
    refine ⟨initiator.secretsFrom secret responder.nonce,
      responder.secretsFrom secret' initiator.nonce,
      (deriveSecrets_eq_ok h.responderNonce).mpr ⟨_, secret, h.remoteEphemeral, hsec, rfl⟩,
      (deriveSecrets_eq_ok h.initiatorNonce).mpr ⟨key, secret', hkey, hshr, rfl⟩, haes, ?_⟩
    unfold secretsFrom
    dsimp only
    rw [← haes, h.macs_eq]
    exact ⟨rfl, rfl, rfl⟩

end

end

/-- The exchange always completes. The two sides then agree exactly if the responder already had a
key in the field `remote_ephemeral`, which `new` leaves open and no message fills, and if the hash
over the initiator's secret and the nonces is that over the responder's secret and the nonces in the
other order. -/
theorem exchange_agree_iff [Secp256k1] [LawfulSecp256k1] [Sha256] [Aes256] [Crypto]
    (staticKey staticKey' ephemeralKey ephemeralKey' authKey ackKey : SecretKey)
    (nonce nonce' : H256) (remoteId remoteEphemeral : Option PublicKey) :
    ∃ initiator responder,
      exchange (new staticKey (some (fromSecretKey staticKey')) ephemeralKey nonce)
        { new staticKey' remoteId ephemeralKey' nonce' with remoteEphemeral } authKey ackKey =
          some (initiator, responder) ∧
      (Agree initiator responder ↔ ∃ key secret secret', remoteEphemeral = some key ∧
        computeSharedSecret ephemeralKey (fromSecretKey ephemeralKey') = .ok secret ∧
        computeSharedSecret ephemeralKey' key = .ok secret' ∧
        sha256 (secret.toList ++ nonce.toList ++ nonce'.toList) =
          sha256 (secret'.toList ++ nonce'.toList ++ nonce.toList)) := by
  obtain ⟨auth, ack, hexc⟩ := exchange_eq
    (new staticKey (some (fromSecretKey staticKey')) ephemeralKey nonce)
    { new staticKey' remoteId ephemeralKey' nonce' with remoteEphemeral } rfl authKey ackKey
  refine ⟨_, _, hexc, ?_⟩
  obtain ⟨secret, hsec, -⟩ := exists_sharedSecret ephemeralKey ephemeralKey'
  refine Iff.trans (Exchanged.agree_iff ⟨rfl, rfl, rfl, rfl, rfl, rfl, rfl, rfl⟩ hsec) ⟨?_, ?_⟩
  · rintro ⟨key, secret', hkey, hshr, haes⟩
    exact ⟨key, secret, secret', hkey, hsec, hshr, haes⟩
  · rintro ⟨key, _, secret', hkey, hshr, hshr', haes⟩
    rw [hsec] at hshr
    cases hshr
    exact ⟨key, secret', hkey, hshr', haes⟩

namespace Sample

scoped instance : Secp256k1 where
  SecretKey := UInt8
  PublicKey := UInt8
  fromSecretKey key := key
  mulTweak key tweak := .ok (key * tweak)
  serializeUncompressed key := ⟨4 :: key :: List.replicate 63 0, rfl⟩
  fromSlice bytes := .ok (bytes.getD 1 0)
  signEcdsaRecoverable _ _ := (⟨List.replicate 64 0, rfl⟩, 0)
  recoveryId _ := .ok 0
  fromCompact _ _ := .ok ()

scoped instance : LawfulSecp256k1 where
  mulTweak_comm a b := ⟨UInt8.mul a b, rfl, congrArg Except.ok (UInt8.mul_comm b a)⟩
  fromSlice_keyBytes _ := rfl
  recoveryId_sign _ _ := rfl
  fromCompact_sign _ _ := rfl

scoped instance : Sha256 := ⟨fun data => ⟨resize (data.drop (data.length - 32)) 32,
  length_resize ..⟩⟩

scoped instance : Aes256 := ⟨fun _ _ => 1⟩

open Unhashed

def initiator : RLPxHandshake := new (3 : UInt8) (some (5 : UInt8)) (7 : UInt8) (.ofU256 1)

def responder : RLPxHandshake := new (5 : UInt8) none (11 : UInt8) (.ofU256 2)

theorem exchange_not_agree : ∃ initiator' responder',
    exchange initiator responder (13 : UInt8) (17 : UInt8) = some (initiator', responder') ∧
      ¬Agree initiator' responder' := by
  obtain ⟨initiator', responder', hexc, hagr⟩ := exchange_agree_iff (3 : UInt8) (5 : UInt8)
    (7 : UInt8) (11 : UInt8) (13 : UInt8) (17 : UInt8) (.ofU256 1) (.ofU256 2) none none
  refine ⟨initiator', responder', hexc, fun h => ?_⟩
  obtain ⟨key, _, _, hkey, -⟩ := hagr.mp h
  cases hkey

/-- The initiator has secrets and the responder has none. With the key of the initiator, it would
derive other ones. -/
theorem exchange_derive :
    (exchange initiator responder (13 : UInt8) (17 : UInt8)).map (fun sides =>
        (sides.1.deriveSecrets.isOk, sides.2.deriveSecrets)) =
      some (true, .error (.handshakeFailed "Remote ephemeral not set")) ∧
    (exchange initiator { responder with remoteEphemeral := some (7 : UInt8) } (13 : UInt8)
        (17 : UInt8)).any (fun sides => sides.2.deriveSecrets.isOk &&
      sides.1.deriveSecrets.toOption.map Secrets.aesSecret !=
        sides.2.deriveSecrets.toOption.map Secrets.aesSecret) = true := by
  decide +kernel

end Sample

end RLPxHandshake

end EthereumRust.Network
