import EthereumRust.Network.Handshake

/-!
# Frames of RLPx (`crates/network`: `rlpx.rs`)

A frame is a header with the length of the payload and the payload itself. Both are encrypted with
the key stream of the sender, and behind each stands the MAC over all that the sender has encrypted
so far.

One direction of a session is its cipher and its MAC. `writeFrame_eq` and `readFrame_eq` say that a
frame moves the direction of the writer and that of the reader to the same place.
-/

namespace EthereumRust.Network

open Rust Rust.Method List

/-- `finalize` of a MAC, a function of the key and of the bytes absorbed. -/
class HmacSha256 where
  finalize : Hmac → H256

def macSize : Nat := 16

structure RLPxSession where
  secrets : Secrets
  ingressAes : Aes256Ctr
  egressAes : Aes256Ctr
  deriving DecidableEq

namespace RLPxSession

def new (secrets : Secrets) : RLPxSession where
  secrets
  ingressAes := .new secrets.aesSecret
  egressAes := .new secrets.aesSecret

def header (frameSize : Nat) : Bytes := (toBigEndian 4 frameSize).drop 1 ++ List.replicate 13 0

section
variable [Aes256] [HmacSha256]

def tag (mac : Hmac) : Bytes := (HmacSha256.finalize mac).toList.take macSize

def encrypt (data : Bytes) : Method RLPxSession NetworkError Bytes := do
  let egressAes ← read egressAes
  let (encrypted, egressAes) := egressAes.applyKeystream data
  update ({ · with egressAes })
  return encrypted

def decrypt (data : Bytes) : Method RLPxSession NetworkError Bytes := do
  let ingressAes ← read ingressAes
  let (decrypted, ingressAes) := ingressAes.applyKeystream data
  update ({ · with ingressAes })
  return decrypted

def egressTag (data : Bytes) : Method RLPxSession NetworkError Bytes := do
  update fun self => { self with secrets.egressMac := self.secrets.egressMac.update data }
  let mac ← read (·.secrets.egressMac)
  return tag mac

def ingressTag (data : Bytes) : Method RLPxSession NetworkError Bytes := do
  update fun self => { self with secrets.ingressMac := self.secrets.ingressMac.update data }
  let mac ← read (·.secrets.ingressMac)
  return tag mac

def writeFrame (data : Bytes) : Method RLPxSession NetworkError Bytes := do
  let header ← encrypt (header data.length)
  let headerMac ← egressTag header
  let encryptedData ← encrypt data
  let frameMac ← egressTag encryptedData
  return header ++ headerMac ++ encryptedData ++ frameMac

def readBody (data : Bytes) (frameSize : Nat) : Method RLPxSession NetworkError Bytes :=
  if data.length < 32 + frameSize + macSize then fail (.invalidMessage "Incomplete frame")
  else do
    let frameData ← slice data 32 (32 + frameSize)
    let frameMac ← slice data (32 + frameSize) (32 + frameSize + macSize)
    let computedMac ← ingressTag frameData
    if computedMac ≠ frameMac then fail (.invalidMessage "Invalid frame MAC")
    else decrypt frameData

def readFrame (data : Bytes) : Method RLPxSession NetworkError Bytes :=
  if data.length < 32 then fail (.invalidMessage "Frame too short")
  else do
    let header ← slice data 0 16
    let headerMac ← slice data 16 32
    let computedMac ← ingressTag header
    if computedMac ≠ headerMac then fail (.invalidMessage "Invalid header MAC")
    else do
      let header ← decrypt header
      readBody data (ofBigEndian (header.take 3))

def writeFrames : List Bytes → Method RLPxSession NetworkError (List Bytes)
  | [] => return []
  | data :: payloads => do
    let frame ← writeFrame data
    let frames ← writeFrames payloads
    return frame :: frames

def readFrames : List Bytes → Method RLPxSession NetworkError (List Bytes)
  | [] => return []
  | frame :: frames => do
    let data ← readFrame frame
    let payloads ← readFrames frames
    return data :: payloads

end

structure Direction where
  cipher : Aes256Ctr
  mac : Hmac

namespace Direction
variable [Aes256] [HmacSha256]

def sealed (self : Direction) (data : Bytes) : Bytes := (self.cipher.applyKeystream data).1

def after (self : Direction) (data : Bytes) : Direction where
  cipher := (self.cipher.applyKeystream data).2
  mac := self.mac.update (self.sealed data)

def frame (self : Direction) (data : Bytes) : Bytes :=
  let behind := self.after (header data.length)
  self.sealed (header data.length) ++ tag behind.mac ++ behind.sealed data ++
    tag (behind.after data).mac

def afterFrame (self : Direction) (data : Bytes) : Direction :=
  (self.after (header data.length)).after data

omit [HmacSha256] in
theorem length_sealed (s : Direction) (data : Bytes) : (s.sealed data).length = data.length := by
  simp [sealed, Aes256Ctr.applyKeystream]

end Direction

def egress (self : RLPxSession) : Direction := ⟨self.egressAes, self.secrets.egressMac⟩

def ingress (self : RLPxSession) : Direction := ⟨self.ingressAes, self.secrets.ingressMac⟩

def setEgress (self : RLPxSession) (direction : Direction) : RLPxSession :=
  { self with egressAes := direction.cipher, secrets.egressMac := direction.mac }

def setIngress (self : RLPxSession) (direction : Direction) : RLPxSession :=
  { self with ingressAes := direction.cipher, secrets.ingressMac := direction.mac }

theorem length_header : (header frameSize).length = 16 := by
  simp [header]

theorem ofBigEndian_take_header (h : frameSize < 2 ^ 24) :
    ofBigEndian ((header frameSize).take 3) = frameSize := by
  have hdrop : (toBigEndian 4 frameSize).drop 1 = toBigEndian 3 frameSize := rfl
  rw [header, hdrop, take_left' (length_toBigEndian 3 frameSize), ofBigEndian_toBigEndian h]

theorem length_tag [HmacSha256] (mac : Hmac) : (tag mac).length = macSize := by
  rw [tag, length_take, List.Vector.toList_length]
  rfl

section
variable [Aes256] [HmacSha256]

theorem writeFrame_eq :
    writeFrame data s = .ok (s.egress.frame data) (s.setEgress (s.egress.afterFrame data)) := rfl

omit [HmacSha256] in
theorem applyKeystream_fst (cipher : Aes256Ctr) :
    cipher.applyKeystream (cipher.applyKeystream data).1 =
      (data, (cipher.applyKeystream data).2) := by
  refine Prod.ext cipher.applyKeystream_applyKeystream ?_
  simp [Aes256Ctr.applyKeystream]

theorem ingressTag_sealed :
    ingressTag (s.ingress.sealed data) s = .ok (tag (s.ingress.after data).mac)
      { s with secrets.ingressMac := (s.ingress.after data).mac } := rfl

omit [HmacSha256] in
theorem decrypt_sealed (s : RLPxSession) :
    decrypt (s.ingress.sealed data)
        { s with secrets.ingressMac := (s.ingress.after data).mac } =
      .ok data (s.setIngress (s.ingress.after data)) := by
  change Outcome.ok (s.ingressAes.applyKeystream (s.ingressAes.applyKeystream data).1).1
    { s with
      secrets.ingressMac := (s.ingress.after data).mac
      ingressAes := (s.ingressAes.applyKeystream (s.ingressAes.applyKeystream data).1).2 } = _
  rw [applyKeystream_fst]
  rfl

theorem readBody_eq
    (h : Remains frame 32 (s.ingress.sealed data ++ tag (s.ingress.after data).mac)) :
    readBody frame data.length s = .ok data (s.setIngress (s.ingress.after data)) := by
  have hdata := s.ingress.length_sealed data
  have hmac := length_tag (s.ingress.after data).mac
  have hlen := h.length_eq
  rw [length_append, hdata] at hlen
  obtain ⟨hsl, h⟩ := h.slice_append (show _ = 32 + data.length by rw [hdata])
  rw [← append_nil (tag _)] at h
  obtain ⟨hsl', -⟩ := h.slice_append (show _ = 32 + data.length + macSize by rw [hmac])
  rw [readBody, if_neg (by omega), bind_checked_of_ok hsl, bind_checked_of_ok hsl',
    bind_of_ok ingressTag_sealed, if_neg (not_not.mpr rfl), decrypt_sealed]

theorem readFrame_eq (hdata : data.length < 2 ^ 24) :
    readFrame (s.ingress.frame data) s = .ok data (s.setIngress (s.ingress.afterFrame data)) := by
  have hhd := s.ingress.length_sealed (header data.length)
  rw [length_header] at hhd
  have hmac := length_tag (s.ingress.after (header data.length)).mac
  have hfrm : Remains (s.ingress.frame data) 0 (s.ingress.frame data) := .start _
  have hlen : 32 ≤ (s.ingress.frame data).length := by
    simp only [Direction.frame, length_append, hmac, macSize]
    omega
  nth_rewrite 2 [Direction.frame] at hfrm
  rw [append_assoc, append_assoc] at hfrm
  obtain ⟨hsl, hfrm⟩ := hfrm.slice_append (show _ = 16 by rw [hhd])
  obtain ⟨hsl', hfrm⟩ := hfrm.slice_append (show _ = 32 by rw [hmac]; rfl)
  rw [readFrame, if_neg (by omega), bind_checked_of_ok hsl, bind_checked_of_ok hsl',
    bind_of_ok ingressTag_sealed, if_neg (not_not.mpr rfl),
    bind_of_ok (decrypt_sealed s), ofBigEndian_take_header hdata]
  exact readBody_eq hfrm

structure Paired (writer reader : RLPxSession) : Prop where
  aesSecret : writer.secrets.aesSecret = reader.secrets.aesSecret
  direction : writer.egress = reader.ingress

omit [Aes256] [HmacSha256] in
theorem paired_new {secrets secrets' : Secrets} (haes : secrets.aesSecret = secrets'.aesSecret)
    (hmac : secrets.egressMac = secrets'.ingressMac) : Paired (new secrets) (new secrets') := by
  refine ⟨haes, ?_⟩
  change (⟨.new secrets.aesSecret, secrets.egressMac⟩ : Direction) = _
  rw [haes, hmac]
  rfl

theorem Paired.deliver (h : Paired writer rd)
    (hdata : data.length < 2 ^ 24) : ∃ frame writer' rd',
      writeFrame data writer = .ok frame writer' ∧ readFrame frame rd = .ok data rd' ∧
        Paired writer' rd' := by
  refine ⟨_, _, rd.setIngress (rd.ingress.afterFrame data), writeFrame_eq, ?_, h.aesSecret, ?_⟩
  · rw [h.direction]
    exact readFrame_eq hdata
  · rw [h.direction]
    rfl

theorem Paired.deliverAll (h : Paired writer rd) (hpay : ∀ data ∈ payloads, data.length < 2 ^ 24) :
    ∃ frames writer' rd', writeFrames payloads writer = .ok frames writer' ∧
      readFrames frames rd = .ok payloads rd' ∧ Paired writer' rd' := by
  induction payloads generalizing writer rd with
  | nil => exact ⟨[], writer, rd, rfl, rfl, h⟩
  | cons data payloads ih =>
    obtain ⟨hdata, hpay⟩ := forall_mem_cons.mp hpay
    obtain ⟨frame, writer₁, rd₁, hwr, hread, h⟩ := h.deliver hdata
    obtain ⟨frames, writer', rd', hwri, hrea, h⟩ := ih h hpay
    refine ⟨frame :: frames, writer', rd', ?_, ?_, h⟩
    · rw [writeFrames, bind_of_ok hwr, bind_of_ok hwri]
      rfl
    · rw [readFrames, bind_of_ok hread, bind_of_ok hrea]
      rfl

end

/-- Sessions with secrets that fit are paired, and over a pair every sequence of payloads of less
than 16 MiB arrives. -/
theorem readFrames_writeFrames [Aes256] [HmacSha256] (secrets secrets' : Secrets)
    (haes : secrets.aesSecret = secrets'.aesSecret)
    (hmac : secrets.egressMac = secrets'.ingressMac) :
    Paired (new secrets) (new secrets') ∧
      ∀ writer rd, Paired writer rd →
        ∀ payloads : List Bytes, (∀ data ∈ payloads, data.length < 2 ^ 24) →
          ∃ frames writer' rd', writeFrames payloads writer = .ok frames writer' ∧
            readFrames frames rd = .ok payloads rd' ∧ Paired writer' rd' :=
  ⟨paired_new haes hmac, fun _ _ h _ hpay => h.deliverAll hpay⟩

section
variable [Aes256] [HmacSha256]

def absorbed (self : RLPxSession) : Nat := self.secrets.ingressMac.absorbed.length

def absorb (self : RLPxSession) (data : Bytes) : RLPxSession :=
  { self with secrets.ingressMac := self.secrets.ingressMac.update data }

omit [Aes256] [HmacSha256] in
theorem absorbed_absorb (s : RLPxSession) :
    (s.absorb data).absorbed = s.absorbed + data.length := length_append

omit [Aes256] in
theorem ingressTag_eq :
    ingressTag data s = .ok (tag (s.absorb data).secrets.ingressMac) (s.absorb data) := rfl

omit [HmacSha256] in
theorem sat_decrypt :
    Sat (decrypt data) s
      (fun decrypted s' => decrypted.length = data.length ∧ s'.absorbed = s.absorbed)
      (fun _ _ => False) (fun _ => False) :=
  ⟨s.ingress.length_sealed data, rfl⟩

theorem sat_readBody :
    Sat (readBody data frameSize) s (fun payload _ => payload.length = frameSize)
      (fun _ s' => s.absorbed ≤ s'.absorbed) (fun _ => True) := by
  rw [readBody]
  split
  · exact le_refl _
  · next hlen =>
    have hsl : slice data 32 (32 + frameSize) =
        .ok ((data.take (32 + frameSize)).drop 32) := if_pos (by omega)
    have hsl' : slice data (32 + frameSize) (32 + frameSize + macSize) =
        .ok ((data.take (32 + frameSize + macSize)).drop (32 + frameSize)) := if_pos (by omega)
    rw [Sat, bind_checked_of_ok hsl, bind_checked_of_ok hsl']
    change Sat (ite _ _ _) _ _ _ _
    rw [sat_ite]
    split
    · exact (Nat.le_add_right _ _).trans_eq (absorbed_absorb s).symm
    · refine (sat_decrypt).mono (fun payload _ h => ?_) (fun _ _ h => h.elim) (fun _ h => h.elim)
      rw [h.1, length_drop, length_take]
      omega

theorem sat_readFrame (hdata : 32 ≤ data.length) :
    Sat (readFrame data) s (fun payload _ => payload.length < 2 ^ 24)
      (fun _ s' => s.absorbed < s'.absorbed) (fun _ => True) := by
  have hsl : slice data 0 16 = .ok ((data.take 16).drop 0) := if_pos (by omega)
  have hsl' : slice data 16 32 = .ok ((data.take 32).drop 16) := if_pos (by omega)
  have habs : (s.absorb ((data.take 16).drop 0)).absorbed = s.absorbed + 16 := by
    rw [absorbed_absorb, length_drop, length_take]
    omega
  rw [readFrame, if_neg (by omega), Sat, bind_checked_of_ok hsl, bind_checked_of_ok hsl',
    bind_of_ok ingressTag_eq]
  change Sat (ite _ _ _) _ _ _ _
  rw [sat_ite]
  split
  · change s.absorbed < _
    omega
  · rw [sat_bind]
    refine (sat_decrypt).mono (fun header s' h => ?_) (fun _ _ h => h.elim) (fun _ h => h.elim)
    refine sat_readBody.mono (fun payload _ hpay => ?_) (fun _ _ hself => ?_) (fun _ => id)
    · have hsize := ofBigEndian_lt (header.take 3)
      have hpow : 256 ^ (header.take 3).length ≤ 256 ^ 3 :=
        Nat.pow_le_pow_right (by decide) (length_take_le 3 header)
      rw [hpay]
      exact lt_of_lt_of_le hsize hpow
    · have := h.2
      omega

end

/-- A session that rejects an input is as before, and reads the whole frame afterwards, exactly when
the input did not reach behind the header and its MAC and the payload is of less than 16 MiB. From
the header on, `read_frame` has moved the MAC and the key stream when it finds that bytes are
missing. -/
theorem readFrame_retry_iff [Aes256] [HmacSha256] (writer rd : RLPxSession)
    (hpai : Paired writer rd) (data part : Bytes) {frame : Bytes} {writer' rd' : RLPxSession}
    {e : NetworkError} (hwr : writeFrame data writer = .ok frame writer')
    (hread : readFrame part rd = .err e rd') :
    (rd' = rd ∧ ∃ rd'', readFrame frame rd' = .ok data rd'') ↔
      part.length < 32 ∧ data.length < 2 ^ 24 := by
  obtain ⟨rfl, -⟩ : writer.egress.frame data = frame ∧ _ :=
    Outcome.ok.injEq .. ▸ (writeFrame_eq).symm.trans hwr
  rw [hpai.direction]
  constructor
  · rintro ⟨rfl, rd'', hret⟩
    constructor
    · by_contra hpart
      exact lt_irrefl _ ((sat_readFrame (Nat.le_of_not_lt hpart)).of_err hread)
    · by_cases hfrm : (rd'.ingress.frame data).length < 32
      · rw [readFrame, if_pos hfrm] at hret
        cases hret
      · exact (sat_readFrame (Nat.le_of_not_lt hfrm)).of_ok hret
  · rintro ⟨hpart, hdata⟩
    rw [readFrame, if_pos hpart] at hread
    cases hread
    exact ⟨rfl, _, readFrame_eq hdata⟩

namespace Sample

open RLPxHandshake.Sample

scoped instance : HmacSha256 := ⟨fun mac => .ofU256 (.ofUsize mac.absorbed.length)⟩

def secrets : Secrets where
  aesSecret := .zero
  macSecret := .zero
  egressMac := .newFromSlice [1]
  ingressMac := .newFromSlice [2]

def remoteSecrets : Secrets :=
  { secrets with egressMac := secrets.ingressMac, ingressMac := secrets.egressMac }

theorem readFrames_writeFrames_two : ∃ frames writer rd,
    writeFrames [[1, 2, 3], []] (new secrets) = .ok frames writer ∧
      readFrames frames (new remoteSecrets) = .ok [[1, 2, 3], []] rd := by
  obtain ⟨hpai, hdel⟩ := readFrames_writeFrames secrets remoteSecrets rfl rfl
  obtain ⟨frames, writer, rd, hwr, hread, -⟩ := hdel _ _ hpai [[1, 2, 3], []] (by decide)
  exact ⟨frames, writer, rd, hwr, hread⟩

theorem readFrame_retry_half : ∃ frame writer reader,
    writeFrame [1, 2, 3] (new secrets) = .ok frame writer ∧
      readFrame (frame.take 8) (new remoteSecrets) =
        .err (.invalidMessage "Frame too short") (new remoteSecrets) ∧
      readFrame frame (new remoteSecrets) = .ok [1, 2, 3] reader := by
  have hretry := readFrame_retry_iff (new secrets) (new remoteSecrets) (paired_new rfl rfl)
    [1, 2, 3] (((new secrets).egress.frame [1, 2, 3]).take 8) writeFrame_eq rfl
  obtain ⟨-, reader, hread⟩ := hretry.mpr ⟨by decide, by decide⟩
  exact ⟨_, _, reader, rfl, rfl, hread⟩

@[reducible] def countingMac : HmacSha256 :=
  ⟨fun mac => .replicate 32 (.ofNat mac.absorbed.length)⟩

set_option maxRecDepth 2000 in
/-- Cut behind the MAC of the header, the frame is lost: the header is no longer authentic. -/
theorem readFrame_retry_lost : letI := countingMac; ∃ frame writer reader reader',
    writeFrame [1, 2, 3] (new secrets) = .ok frame writer ∧
      readFrame (frame.take 32) (new remoteSecrets) =
        .err (.invalidMessage "Incomplete frame") reader ∧
      reader ≠ new remoteSecrets ∧
      readFrame frame reader = .err (.invalidMessage "Invalid header MAC") reader' := by
  refine ⟨_, _, _, _, rfl, rfl, fun h => ?_, rfl⟩
  exact absurd (congrArg absorbed h) (by decide)

end Sample

end RLPxSession

end EthereumRust.Network
