import EthereumRust.Rlp.Decode

/-!
# Headers on the bytes that are left

What `decode_header` reads depends only on the bytes from the position on. `readHeader` is that
function, and each reading method of the decoder is specified with it.
-/

namespace EthereumRust.Rlp
open Rust Method Decoder
open List hiding tail

def readLongHeader (lenOfLen : Nat) (isData : Bool) (bytes : Bytes) :
    Except RlpError (Nat × Nat × Bool) :=
  if lenOfLen > bytes.length then .error eof
  else (decodeLength (bytes.take lenOfLen)).map fun len => (1 + lenOfLen, len, isData)

def readHeader : Bytes → Except RlpError (Nat × Nat × Bool)
  | [] => .error eof
  | byte :: bytes =>
    if byte.toNat ≤ 0x7f then .ok (0, 1, true)
    else if byte.toNat = 0x80 then .ok (1, 0, true)
    else if byte.toNat ≤ 0xb7 then .ok (1, byte.toNat - 0x80, true)
    else if byte.toNat ≤ 0xbf then readLongHeader (byte.toNat - 0xb7) true bytes
    else if byte.toNat = 0xc0 then .ok (1, 0, false)
    else if byte.toNat ≤ 0xf7 then .ok (1, byte.toNat - 0xc0, false)
    else readLongHeader (byte.toNat - 0xf7) false bytes

namespace Decoder

variable {d : Decoder}

@[simp] theorem length_rest : d.rest.length = d.data.length - d.position := length_drop

@[simp] theorem advance_data : (d.advance n).data = d.data := rfl

@[simp] theorem advance_position :
    (d.advance n).position = d.position + n := rfl

@[simp] theorem advance_advance :
    (d.advance m).advance n = d.advance (m + n) := by
  simp [advance, add_assoc]

@[simp] theorem rest_advance : (d.advance n).rest = d.rest.drop n := by
  simp [rest, advance, drop_drop]

@[simp] theorem rest_new (data : Bytes) : (new data).rest = data := rfl

theorem rest_of_getElem? (h : d.data[d.position]? = some b) :
    d.rest = b :: d.data.drop (d.position + 1) := by
  obtain ⟨hlt, rfl⟩ := List.getElem?_eq_some_iff.mp h
  exact List.drop_eq_getElem_cons hlt

theorem rest_of_getElem?_none (h : d.data[d.position]? = none) : d.rest = [] :=
  drop_eq_nil_of_le (getElem?_eq_none_iff.mp h)

theorem getElem?_of_rest (h : d.rest = b :: tail) : d.data[d.position]? = some b := by
  have := congrArg head? h
  simpa [rest] using this

theorem position_add_le (h : n ≤ d.rest.length) (hn : 0 < n) : d.position + n ≤ d.data.length := by
  rw [length_rest] at h
  omega

end Decoder

theorem isizeMax_lt_wordBound : isizeMax + 256 < wordBound := by decide

section
variable {d : Decoder} {len stop : Nat}

theorem skip_of (h : d.position + n < wordBound) : skip n d = .ok () (d.advance n) := by
  change (checked (addUsize d.position n) >>= _ : Read Unit) d = _
  rw [addUsize_of_lt h]
  rfl

theorem skip_inv {u : Unit} (h : skip n d = .ok u d') : d' = d.advance n := by
  simp only [skip, bind_eq_ok, read_eq_ok, checked_eq_ok, addUsize_eq_ok, update_eq_ok] at h
  obtain ⟨_, _, ⟨rfl, rfl⟩, _, _, ⟨⟨rfl, -⟩, rfl⟩, rfl⟩ := h
  rfl

theorem payloadEnd_of (h : d.position + len ≤ d.data.length) (hd : d.data.length ≤ isizeMax) :
    payloadEnd len d = .ok (d.position + len) d := by
  change (checked (addUsize d.position len) >>= _ : Read Nat) d = _
  rw [addUsize_of_lt (by have := isizeMax_lt_wordBound; omega)]
  exact congrFun (if_neg (not_lt.mpr h)) d

theorem payloadEnd_inv (h : payloadEnd len d = .ok stop d') :
    d' = d ∧ stop = d.position + len ∧ d.position + len ≤ d.data.length := by
  simp only [payloadEnd, bind_eq_ok, checked_eq_ok, addUsize_eq_ok] at h
  obtain ⟨_, _, ⟨rfl, rfl⟩, _, _, ⟨⟨rfl, -⟩, rfl⟩, h⟩ := h
  split_ifs at h with hle
  · exact absurd h fail_ne_ok
  · obtain ⟨rfl, rfl⟩ := pure_eq_ok.mp h
    exact ⟨rfl, rfl, not_lt.mp hle⟩

theorem takeBytes_of (h : d.position + len ≤ d.data.length) (hd : d.data.length ≤ isizeMax) :
    takeBytes len d = .ok (d.rest.take len) (d.advance len) := by
  have hlt : d.position + len < wordBound := by have := isizeMax_lt_wordBound; omega
  have hsl : slice d.data d.position (d.position + len) = .ok (d.rest.take len) := by
    rw [slice, if_pos ⟨Nat.le_add_right _ _, h⟩, rest, drop_take, Nat.add_sub_cancel_left]
  change (checked (addUsize d.position len) >>= fun stop => checked (slice d.data d.position stop)
    >>= fun bytes => skip len >>= fun _ => pure bytes : Read Bytes) d = _
  rw [addUsize_of_lt hlt]
  change (checked (slice d.data d.position (d.position + len)) >>= _ : Read Bytes) d = _
  rw [hsl]
  exact bind_of_ok (skip_of hlt)

theorem takeBytes_inv (h : takeBytes len d = .ok bytes d') :
    bytes = d.rest.take len ∧ d' = d.advance len := by
  simp only [takeBytes, bind_eq_ok, checked_eq_ok, addUsize_eq_ok, slice_eq_ok, pure_eq_ok] at h
  obtain ⟨_, _, ⟨rfl, rfl⟩, _, _, ⟨⟨rfl, -⟩, rfl⟩, _, _, ⟨⟨rfl, -⟩, rfl⟩, _, _, hskip, rfl, rfl⟩ :=
    h
  refine ⟨?_, skip_inv hskip⟩
  simp [rest]

end

theorem decodeLongHeader_of (hpos : d.position < d.data.length) (hk : k ≤ 8)
    (hd : d.data.length ≤ isizeMax) : decodeLongHeader k isData d =
      result (readLongHeader k isData (d.data.drop (d.position + 1))) d := by
  have hbd := isizeMax_lt_wordBound
  change (checked (addUsize d.position 1) >>= fun start => checked (addUsize start k) >>= _ :
    Read _) d = _
  rw [addUsize_of_lt (by omega)]
  change (checked (addUsize (d.position + 1) k) >>= _ : Read _) d = _
  rw [addUsize_of_lt (by omega)]
  change (if d.position + 1 + k > d.data.length then fail eof else
    checked (slice d.data (d.position + 1) (d.position + 1 + k)) >>= fun bytes =>
      result (decodeLength bytes) >>= fun len => pure (1 + k, len, isData) : Read _) d = _
  unfold readLongHeader
  simp only [length_drop]
  split_ifs with h h' h'
  · rfl
  · omega
  · omega
  · rw [slice, if_pos ⟨Nat.le_add_right _ _, not_lt.mp h⟩, drop_take, Nat.add_sub_cancel_left]
    change (result (decodeLength ((d.data.drop (d.position + 1)).take k)) >>= _ : Read _) d = _
    cases decodeLength ((d.data.drop (d.position + 1)).take k) <;> rfl

theorem decodeLongHeader_inv (hk : decodeLongHeader k isData d = .ok h d') :
    readLongHeader k isData (d.data.drop (d.position + 1)) = .ok h ∧ d' = d := by
  simp only [decodeLongHeader, bind_eq_ok, read_eq_ok, checked_eq_ok, addUsize_eq_ok] at hk
  obtain ⟨_, _, ⟨rfl, rfl⟩, _, _, ⟨⟨rfl, -⟩, rfl⟩, _, _, ⟨⟨rfl, -⟩, rfl⟩, hk⟩ := hk
  split_ifs at hk with hle
  · exact absurd hk fail_ne_ok
  simp only [bind_eq_ok, checked_eq_ok, slice_eq_ok, result_eq_ok] at hk
  obtain ⟨_, _, ⟨⟨rfl, -, hstop⟩, rfl⟩, len, _, ⟨hlen, rfl⟩, rfl, rfl⟩ := hk
  rw [Nat.add_sub_cancel_left] at hlen
  refine ⟨?_, rfl⟩
  rw [readLongHeader, if_neg, hlen]
  · rfl
  · rw [length_drop, not_lt]
    exact Nat.le_sub_of_add_le' hstop

theorem decodeHeader_rel
    {R : Outcome Decoder RlpError (Nat × Nat × Bool) → Except RlpError (Nat × Nat × Bool) → Prop}
    (hend : R ((fail eof : Read _) d) (.error eof)) (hpure : ∀ h, R ((pure h : Read _) d) (.ok h))
    (hlong : ∀ k isData, d.position < d.data.length → k ≤ 8 →
      R (decodeLongHeader k isData d) (readLongHeader k isData (d.data.drop (d.position + 1)))) :
    R (decodeHeader d) (readHeader d.rest) := by
  rw [decodeHeader, bind_read]
  dsimp only [id]
  cases hb : d.data[d.position]? with
  | none =>
    rw [rest_of_getElem?_none hb]
    exact hend
  | some byte =>
    have hpos : d.position < d.data.length := (List.getElem?_eq_some_iff.mp hb).1
    have h256 := byte.toNat_lt
    have hite {c : Prop} [Decidable c] {m m' : Read (Nat × Nat × Bool)}
        {r r' : Except RlpError (Nat × Nat × Bool)} (h : c → R (m d) r) (h' : ¬c → R (m' d) r') :
        R ((if c then m else m') d) (if c then r else r') := by
      split_ifs with hc
      · exact h hc
      · exact h' hc
    rw [rest_of_getElem? hb]
    refine hite (fun _ => hpure _) fun _ => hite (fun _ => hpure _) fun _ =>
      hite (fun _ => hpure _) fun _ => hite (fun _ => hlong _ _ hpos (by omega)) fun _ =>
      hite (fun _ => hpure _) fun _ => hite (fun _ => hpure _) fun _ => hlong _ _ hpos (by omega)

theorem decodeHeader_of (hd : d.data.length ≤ isizeMax) :
    decodeHeader d = result (readHeader d.rest) d := by
  refine decodeHeader_rel (R := fun outcome r => outcome = result r d) rfl (fun _ => rfl) ?_
  exact fun _ _ hpos hk => decodeLongHeader_of hpos hk hd

theorem decodeHeader_inv (hh : decodeHeader d = .ok h d') : readHeader d.rest = .ok h ∧ d' = d := by
  refine decodeHeader_rel (R := fun outcome r => outcome = .ok h d' → r = .ok h ∧ d' = d)
    (fun h => absurd h fail_ne_ok) (fun _ h => ?_) (fun _ _ _ _ => decodeLongHeader_inv) hh
  obtain ⟨rfl, rfl⟩ := pure_eq_ok.mp h
  exact ⟨rfl, rfl⟩

section
variable {bytes : Bytes} {len : Nat}

theorem foldlM_decodeLength (acc : Nat) (h : (acc + 1) * 256 ^ bytes.length ≤ wordBound) :
    bytes.foldlM (fun len byte => checkedAddUsize (len * 256 % wordBound) byte.toNat) acc =
      some (bytes.foldl (fun acc b => acc * 256 + b.toNat) acc) := by
  induction bytes generalizing acc with
  | nil => rfl
  | cons b bytes ih =>
    have hb := b.toNat_lt
    have hnext : (acc * 256 + b.toNat + 1) * 256 ^ bytes.length ≤ wordBound :=
      calc (acc * 256 + b.toNat + 1) * 256 ^ bytes.length
          ≤ ((acc + 1) * 256) * 256 ^ bytes.length := Nat.mul_le_mul_right _ (by omega)
        _ = (acc + 1) * (256 ^ bytes.length * 256) := by ring
        _ ≤ wordBound := h
    have hlt : acc * 256 + b.toNat < wordBound :=
      lt_of_lt_of_le (Nat.lt_succ_self _)
        (le_trans (Nat.le_mul_of_pos_right _ (Nat.pow_pos (by decide))) hnext)
    have hmod : acc * 256 % wordBound = acc * 256 :=
      Nat.mod_eq_of_lt (lt_of_le_of_lt (Nat.le_add_right _ _) hlt)
    rw [foldlM_cons, hmod, checkedAddUsize, if_pos hlt]
    exact ih _ hnext

theorem decodeLength_cons {b : UInt8} (hb : b ≠ 0) (h : bytes.length < 8) :
    decodeLength (b :: bytes) = .ok (ofBigEndian (b :: bytes)) := by
  have hpow : (0 + 1) * 256 ^ (b :: bytes).length ≤ wordBound := by
    rw [zero_add, one_mul]
    exact Nat.pow_le_pow_right (by decide) h
  rw [decodeLength, if_neg hb, foldlM_decodeLength 0 hpow]
  rfl

theorem decodeLength_inv (h : decodeLength bytes = .ok len) (hlen : bytes.length ≤ 8) :
    ∃ b bytes', bytes = b :: bytes' ∧ b ≠ 0 ∧ len = ofBigEndian bytes := by
  cases bytes with
  | nil => cases h
  | cons b bytes =>
    have hb : b ≠ 0 := by
      rintro rfl
      cases h
    rw [decodeLength_cons hb hlen] at h
    cases h
    exact ⟨b, bytes, rfl, hb, rfl⟩

theorem encodeLength_eq_toBigEndian (hk : k < 4) (hlow : 256 ^ k ≤ len)
    (hhigh : len < 256 ^ (k + 1)) : encodeLength len = toBigEndian (k + 1) len := by
  unfold encodeLength
  obtain rfl | rfl | rfl | rfl : k = 0 ∨ k = 1 ∨ k = 2 ∨ k = 3 := by omega
  · rw [if_pos (by omega)]
    rfl
  · rw [if_neg (by omega), if_pos (by omega)]
    simp [toBigEndian, Nat.shiftRight_eq_div_pow]
  · rw [if_neg (by omega), if_neg (by omega), if_pos (by omega)]
    simp [toBigEndian, Nat.shiftRight_eq_div_pow, Nat.div_div_eq_div_mul]
  · rw [if_neg (by omega), if_neg (by omega), if_neg (by omega)]
    simp [toBigEndian, Nat.shiftRight_eq_div_pow, Nat.div_div_eq_div_mul]

theorem decodeLength_encodeLength (h0 : 0 < len) (h : len < 2 ^ 32) :
    decodeLength (encodeLength len) = .ok len := by
  have hk : Nat.log 256 len < 4 := Nat.log_lt_of_lt_pow h0.ne' (lt_of_lt_of_le h (by decide))
  have hlow : 256 ^ Nat.log 256 len ≤ len := Nat.pow_log_le_self 256 h0.ne'
  have hhigh : len < 256 ^ (Nat.log 256 len + 1) := Nat.lt_pow_succ_log_self (by decide) len
  have hval := ofBigEndian_toBigEndian hhigh
  have hlen := length_toBigEndian (Nat.log 256 len + 1) len
  rw [encodeLength_eq_toBigEndian hk hlow hhigh]
  cases hbs : toBigEndian (Nat.log 256 len + 1) len with
  | nil => simp [hbs] at hlen
  | cons b bytes =>
    rw [hbs] at hval hlen
    have hrest : bytes.length = Nat.log 256 len := Nat.succ.inj hlen
    -- with a zero in front the number would need fewer bytes
    have hb : b ≠ 0 := by
      rintro rfl
      have hlt := ofBigEndian_lt bytes
      rw [ofBigEndian_cons, UInt8.toNat_zero, zero_mul, zero_add] at hval
      rw [hval, hrest] at hlt
      exact absurd hlow (not_le.mpr hlt)
    rw [decodeLength_cons hb (by omega), hval]

theorem encodeLength_of_decodeLength (h : decodeLength bytes = .ok len) (hlen : bytes.length ≤ 4) :
    encodeLength len = bytes := by
  obtain ⟨b, bytes, rfl, hb, rfl⟩ := decodeLength_inv h (by omega)
  rw [encodeLength_eq_toBigEndian (k := bytes.length) hlen (pow_le_ofBigEndian hb)
    (ofBigEndian_lt _)]
  exact toBigEndian_ofBigEndian (b :: bytes)

theorem le_of_decodeLength (h : decodeLength bytes = .ok len) (h4 : 4 < bytes.length)
    (h8 : bytes.length ≤ 8) : 2 ^ 32 ≤ len := by
  obtain ⟨b, bytes, rfl, hb, rfl⟩ := decodeLength_inv h h8
  calc 2 ^ 32 = 256 ^ 4 := by norm_num
    _ ≤ 256 ^ bytes.length := Nat.pow_le_pow_right (by decide) (Nat.le_of_lt_succ h4)
    _ ≤ _ := pow_le_ofBigEndian hb

end

def kindHeader (isData : Bool) (len : Nat) : Bytes :=
  match isData with
  | true => header 0x80 0xb7 len
  | false => header 0xc0 0xf7 len

def bases (isData : Bool) : Nat × Nat :=
  match isData with
  | true => (0x80, 0xb7)
  | false => (0xc0, 0xf7)

theorem kindHeader_eq (len : Nat) :
    kindHeader isData len = header (bases isData).1 (bases isData).2 len := by
  cases isData <;> rfl

/-- The headers that `decode_header` accepts for a payload of `len` bytes. -/
inductive HeaderForm : Bytes → Nat → Bool → Prop where
  | short : len < 56 → HeaderForm [.ofNat ((bases isData).1 + len)] len isData
  | long : decodeLength bytes = .ok len → bytes.length ≤ 8 →
      HeaderForm (.ofNat ((bases isData).2 + bytes.length) :: bytes) len isData

section
variable {b : Bytes} {isData : Bool}

theorem HeaderForm.length_pos (H : HeaderForm h len isData) : 0 < h.length := by
  cases H <;> simp

theorem headerForm_kindHeader (hlen : len < 2 ^ 32) :
    HeaderForm (kindHeader isData len) len isData := by
  rw [kindHeader_eq]
  rcases lt_or_ge len 56 with h | h
  · rw [header_short h]
    exact .short h
  · rw [header_long h]
    refine .long (decodeLength_encodeLength (by omega) hlen) ?_
    have := length_encodeLength len
    omega

theorem HeaderForm.eq_kindHeader_iff (H : HeaderForm h len isData) :
    h = kindHeader isData len ↔ h.length = 1 ∨ (56 ≤ len ∧ len < 2 ^ 32) := by
  rw [kindHeader_eq]
  cases H with
  | short hlen => simp [header_short hlen]
  | @long bytes len isData hbs h8 =>
    obtain ⟨x, bytes', rfl, -, -⟩ := decodeLength_inv hbs h8
    constructor
    · intro heq
      refine .inr ?_
      rcases lt_or_ge len 56 with hlt | hge
      · rw [header_short hlt] at heq
        simp at heq
      · rw [header_long hge] at heq
        obtain ⟨-, htail⟩ := cons.inj heq
        have h4 : (x :: bytes').length ≤ 4 := htail ▸ (length_encodeLength len).2
        obtain ⟨_, _, -, -, rfl⟩ := decodeLength_inv hbs h8
        have := ofBigEndian_lt (x :: bytes')
        refine ⟨hge, lt_of_lt_of_le this ?_⟩
        exact le_trans (Nat.pow_le_pow_right (by decide) h4) (by norm_num)
    · rintro (h1 | ⟨hge, hlt⟩)
      · simp at h1
      · have h4 : (x :: bytes').length ≤ 4 := by
          by_contra h5
          have := le_of_decodeLength hbs (not_le.mp h5) h8
          omega
        rw [header_long hge, encodeLength_of_decodeLength hbs h4]

theorem readLongHeader_append (hbs : decodeLength bytes = .ok len) :
    readLongHeader bytes.length isData (bytes ++ tail) = .ok (1 + bytes.length, len, isData) := by
  rw [readLongHeader, if_neg, take_left, hbs]
  · rfl
  · simp

theorem toNat_short (isData : Bool) (hlen : len < 56) :
    (UInt8.ofNat ((bases isData).1 + len)).toNat = (bases isData).1 + len := by
  cases isData <;> simp only [bases, UInt8.toNat_ofNat'] <;> omega

theorem toNat_long (isData : Bool) (hlen : len ≤ 8) :
    (UInt8.ofNat ((bases isData).2 + len)).toNat = (bases isData).2 + len := by
  cases isData <;> simp only [bases, UInt8.toNat_ofNat'] <;> omega

theorem firstByte_cases (byte : UInt8) :
    byte.toNat ≤ 0x7f ∨ (∃ isData n, n < 56 ∧ byte.toNat = (bases isData).1 + n) ∨
      ∃ isData k, 0 < k ∧ k ≤ 8 ∧ byte.toNat = (bases isData).2 + k := by
  have hbyte := byte.toNat_lt
  rcases lt_or_ge byte.toNat 0x80 with h | h
  · exact .inl (Nat.le_of_lt_succ h)
  rcases lt_or_ge byte.toNat 0xb8 with h' | h'
  · exact .inr (.inl ⟨true, byte.toNat - 0x80, by omega, (Nat.add_sub_of_le h).symm⟩)
  rcases lt_or_ge byte.toNat 0xc0 with h'' | h''
  · exact .inr (.inr ⟨true, byte.toNat - 0xb7, by omega, by omega,
      (Nat.add_sub_of_le (Nat.le_of_succ_le h')).symm⟩)
  rcases lt_or_ge byte.toNat 0xf8 with h''' | h'''
  · exact .inr (.inl ⟨false, byte.toNat - 0xc0, by omega, (Nat.add_sub_of_le h'').symm⟩)
  · exact .inr (.inr ⟨false, byte.toNat - 0xf7, by omega, by omega,
      (Nat.add_sub_of_le (Nat.le_of_succ_le h''')).symm⟩)

theorem readHeader_small (hb : byte.toNat ≤ 0x7f) (tail : Bytes) :
    readHeader (byte :: tail) = .ok (0, 1, true) := if_pos hb

theorem readHeader_short (hn : n < 56) (hb : byte.toNat = (bases isData).1 + n) :
    readHeader (byte :: tail) = .ok (1, n, isData) := by
  rw [readHeader]
  cases isData with
  | true =>
    change byte.toNat = 0x80 + n at hb
    rcases Nat.eq_zero_or_pos n with rfl | hpos
    · rw [if_neg (by omega), if_pos hb]
    · rw [if_neg (by omega), if_neg (by omega), if_pos (by omega), hb, Nat.add_sub_cancel_left]
  | false =>
    change byte.toNat = 0xc0 + n at hb
    rw [if_neg (by omega), if_neg (by omega), if_neg (by omega), if_neg (by omega)]
    rcases Nat.eq_zero_or_pos n with rfl | hpos
    · rw [if_pos hb]
    · rw [if_neg (by omega), if_pos (by omega), hb, Nat.add_sub_cancel_left]

theorem readHeader_long (hpos : 0 < k) (hk : k ≤ 8) (hb : byte.toNat = (bases isData).2 + k) :
    readHeader (byte :: tail) = readLongHeader k isData tail := by
  rw [readHeader]
  cases isData with
  | true =>
    change byte.toNat = 0xb7 + k at hb
    rw [if_neg (by omega), if_neg (by omega), if_neg (by omega), if_pos (by omega), hb,
      Nat.add_sub_cancel_left]
  | false =>
    change byte.toNat = 0xf7 + k at hb
    rw [if_neg (by omega), if_neg (by omega), if_neg (by omega), if_neg (by omega),
      if_neg (by omega), if_neg (by omega), hb, Nat.add_sub_cancel_left]

theorem HeaderForm.readHeader_append (H : HeaderForm h len isData) (tail : Bytes) :
    readHeader (h ++ tail) = .ok (h.length, len, isData) := by
  cases H with
  | short hlen => exact readHeader_short hlen (toNat_short isData hlen)
  | @long bytes len isData hbs h8 =>
    have hpos : 0 < bytes.length := by
      obtain ⟨x, bytes', rfl, -, -⟩ := decodeLength_inv hbs h8
      exact Nat.succ_pos _
    rw [cons_append, readHeader_long hpos h8 (toNat_long isData h8),
      readLongHeader_append hbs, length_cons, add_comm]

variable {off : Nat}

theorem readLongHeader_inv (hh : readLongHeader k isData' b = .ok (off, len, isData)) (hk : k ≤ 8)
    (hbyte : byte.toNat = (bases isData').2 + k) :
    ∃ h tail, byte :: b = h ++ tail ∧ h.length = off ∧ HeaderForm h len isData := by
  unfold readLongHeader at hh
  split_ifs at hh with hlt
  cases hbs : decodeLength (b.take k) with
  | error e => rw [hbs] at hh; cases hh
  | ok len' =>
    rw [hbs] at hh
    cases hh
    have hlen : (b.take k).length = k := length_take_of_le (not_lt.mp hlt)
    refine ⟨byte :: b.take k, b.drop k, by simp, ?_, ?_⟩
    · rw [length_cons, hlen, add_comm]
    · have hform : HeaderForm (.ofNat ((bases isData).2 + (b.take k).length) :: b.take k)
          len isData := .long hbs (hlen.trans_le hk)
      rwa [hlen, ← hbyte, UInt8.ofNat_toNat] at hform

theorem readHeader_inv (hh : readHeader b = .ok (off, len, isData)) :
    (∃ byte tail, b = byte :: tail ∧ byte.toNat ≤ 0x7f ∧ off = 0 ∧ len = 1 ∧ isData = true) ∨
      ∃ h tail, b = h ++ tail ∧ h.length = off ∧ HeaderForm h len isData := by
  cases b with
  | nil => cases hh
  | cons byte b =>
    rcases firstByte_cases byte with hb | ⟨isData', n, hn, hb⟩ | ⟨isData', k, hpos, hk, hb⟩
    · rw [readHeader_small hb] at hh
      cases hh
      exact .inl ⟨byte, b, rfl, hb, rfl, rfl, rfl⟩
    · rw [readHeader_short hn hb] at hh
      cases hh
      have hform : HeaderForm [.ofNat ((bases isData).1 + len)] len isData := .short hn
      rw [← hb, UInt8.ofNat_toNat] at hform
      exact .inr ⟨[byte], b, rfl, rfl, hform⟩
    · rw [readHeader_long hpos hk hb] at hh
      exact .inr (readLongHeader_inv hh hk hb)

theorem readHeader_append {header : Nat × Nat × Bool} (hh : readHeader b = .ok header)
    (tail : Bytes) : readHeader (b ++ tail) = .ok header := by
  obtain ⟨off, len, isData⟩ := header
  rcases readHeader_inv hh with ⟨byte, b, rfl, hbyte, rfl, rfl, rfl⟩ | ⟨h, b, rfl, rfl, H⟩
  · exact readHeader_small hbyte _
  · rw [append_assoc]
    exact H.readHeader_append _

theorem readHeader_take (hh : readHeader b = .ok (off, len, isData))
    (hn : off + len ≤ n) : readHeader (b.take n) = .ok (off, len, isData) := by
  rcases readHeader_inv hh with ⟨byte, b, rfl, hbyte, rfl, rfl, rfl⟩ | ⟨h, b, rfl, rfl, H⟩
  · obtain ⟨m, rfl⟩ := Nat.exists_eq_succ_of_ne_zero (show n ≠ 0 by omega)
    exact readHeader_small hbyte _
  · rw [take_append, take_of_length_le (by omega)]
    exact H.readHeader_append _

theorem readHeader_bounds (hh : readHeader b = .ok (off, len, isData)) :
    off ≤ b.length ∧ 0 < off + len ∧ (isData = false → 0 < off) := by
  rcases readHeader_inv hh with ⟨byte, b, rfl, -, rfl, rfl, rfl⟩ | ⟨h, b, rfl, rfl, H⟩
  · simp
  · have := H.length_pos
    rw [length_append]
    omega

theorem HeaderForm.isData_iff (H : HeaderForm (byte :: h) len isData) :
    isData = false ↔ 0xc0 ≤ byte.toNat := by
  cases H with
  | short hlen =>
    rw [toNat_short isData hlen]
    cases isData with
    | false => simp [bases]
    | true =>
      simp only [bases, Bool.true_eq_false, false_iff]
      omega
  | long _ h8 =>
    rw [toNat_long isData h8]
    cases isData <;> simp [bases] <;> omega

theorem readHeader_isData (hh : readHeader (byte :: b) = .ok (off, len, isData)) :
    isData = false ↔ 0xc0 ≤ byte.toNat := by
  rcases readHeader_inv hh with ⟨_, _, heq, hsm, -, -, rfl⟩ | ⟨h, _, heq, -, H⟩
  · cases heq
    simp only [Bool.true_eq_false, false_iff]
    omega
  · cases h with
    | nil => exact absurd H.length_pos (lt_irrefl 0)
    | cons x h =>
      cases heq
      exact H.isData_iff

end

end EthereumRust.Rlp
