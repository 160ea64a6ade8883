import EthereumRust.Rlp.RoundTrip

/-!
# Canonical encodings

`Minimal b` is the check on bytes that the decoder does not make: `b` splits into items that end
inside the list they stand in, each behind the shortest header for its payload.
-/

namespace EthereumRust.Rlp

open Rust List RlpItem

/-- The header read off `b` is the shortest for its payload: no header before a small byte, no long
form for a length below 56, and no length that takes more than four bytes. -/
def Shortest (b : Bytes) (offset len : Nat) (isData : Bool) : Prop :=
  offset = 0 ∨ (offset = 1 ∧ (isData = true → len = 1 → ∀ x ∈ b[1]?, 0x80 ≤ x)) ∨
    (56 ≤ len ∧ len < 2 ^ 32)

inductive Minimal : Bytes → Prop where
  | nil : Minimal []
  | string : readHeader b = .ok (offset, len, true) → offset + len ≤ b.length →
      Shortest b offset len true → Minimal (b.drop (offset + len)) → Minimal b
  | list : readHeader b = .ok (offset, len, false) → offset + len ≤ b.length →
      Shortest b offset len false → Minimal ((b.drop offset).take len) →
      Minimal (b.drop (offset + len)) → Minimal b

section
variable {b : Bytes} {off len : Nat}

theorem Shortest.encodeBytes_eq (hb : Shortest b off len true)
    (hh : readHeader b = .ok (off, len, true)) (hle : off + len ≤ b.length) :
    encodeBytes ((b.drop off).take len) = b.take (off + len) := by
  rcases readHeader_inv hh with ⟨byte, b, rfl, hbyte, rfl, rfl, -⟩ | ⟨h, b, rfl, rfl, H⟩
  · have hlt : byte < 0x80 := UInt8.lt_iff_toNat_lt.mpr (Nat.lt_succ_of_le hbyte)
    simp [encodeBytes, hlt]
  · rw [drop_left, take_append, Nat.add_sub_cancel_left, take_of_length_le (Nat.le_add_right _ _)]
    rw [length_append, Nat.add_le_add_iff_left] at hle
    have hlen : (b.take len).length = len := length_take_of_le hle
    have hhd : h = kindHeader true len := by
      rw [H.eq_kindHeader_iff]
      rcases hb with h0 | ⟨h1, -⟩ | h56
      · exact absurd H.length_pos (by omega)
      · exact .inl h1
      · exact .inr h56
    rcases Rlp.encodeBytes_eq (b.take len) with heq | ⟨x, hx, hs, heq⟩
    · rw [heq, hlen, hhd]
      rfl
    · -- a small byte behind a header of its own is what `Shortest` rules out
      obtain rfl : len = 1 := by rw [← hlen, hs]; rfl
      cases b with
      | nil => cases hs
      | cons y b =>
        cases hs
        rcases hb with h0 | ⟨h1, hbig⟩ | h56
        · exact absurd H.length_pos (by omega)
        · have hy : (h ++ x :: b)[1]? = some x := by
            rw [getElem?_append_right (le_of_eq h1), h1]
            rfl
          exact absurd hx (UInt8.not_lt.mpr (hbig rfl rfl x hy))
        · exact absurd h56.1 (by decide)

theorem Shortest.encodePayload_eq (hb : Shortest b off len false)
    (hh : readHeader b = .ok (off, len, false)) (hle : off + len ≤ b.length) :
    encodePayload ((b.drop off).take len) = b.take (off + len) := by
  rcases readHeader_inv hh with ⟨_, _, -, -, -, -, h⟩ | ⟨h, b, rfl, rfl, H⟩
  · cases h
  · rw [drop_left, take_append, Nat.add_sub_cancel_left, take_of_length_le (Nat.le_add_right _ _)]
    rw [length_append, Nat.add_le_add_iff_left] at hle
    have hhd : h = kindHeader false len := by
      rw [H.eq_kindHeader_iff]
      rcases hb with h0 | ⟨h1, -⟩ | h56
      · exact absurd H.length_pos (by omega)
      · exact .inl h1
      · exact .inr h56
    rw [encodePayload, length_take_of_le hle, hhd]
    rfl

end

theorem Minimal.exists_items (hb : Minimal b) :
    ∃ items, ReadsAll items b ∧ RlpItem.encodeAll items = b := by
  induction hb with
  | nil => exact ⟨[], by rw [ReadsAll], by rw [RlpItem.encodeAll]⟩
  | @string b off len hh hle hsh _ ih =>
    obtain ⟨items, H, heq⟩ := ih
    refine ⟨.string ((b.drop off).take len) :: items, ?_, ?_⟩
    · exact ⟨_, _, (take_append_drop (off + len) b).symm, reads_string hh hle, H⟩
    · rw [RlpItem.encodeAll, heq, RlpItem.encode, hsh.encodeBytes_eq hh hle, take_append_drop]
  | @list b off len hh hle hsh _ _ ih ih' =>
    obtain ⟨inner, Hinner, hinn⟩ := ih
    obtain ⟨items, H, heq⟩ := ih'
    have hlist : RlpItem.encode (.list inner) = b.take (off + len) := by
      rw [RlpItem.encode, hinn, hsh.encodePayload_eq hh hle]
    refine ⟨.list inner :: items, ?_, ?_⟩
    · rw [ReadsAll]
      refine ⟨_, _, (take_append_drop (off + len) b).symm, ?_, H⟩
      rw [Reads]
      refine ⟨off, ?_, ?_⟩
      · rw [readHeader_take hh (le_refl _), length_take_of_le hle, Nat.add_sub_cancel_left]
      · rwa [drop_take, Nat.add_sub_cancel_left]
    · rw [RlpItem.encodeAll, heq, hlist, take_append_drop]

section
variable {isData : Bool}

theorem HeaderForm.aligned (H : HeaderForm h len isData)
    (heq : kindHeader isData len' ++ X = h ++ Y) :
    kindHeader isData len' = h ∧ X = Y ∧ len < 2 ^ 32 := by
  rw [kindHeader_eq] at heq ⊢
  suffices hlen : (header (bases isData).1 (bases isData).2 len').length = h.length ∧
      len < 2 ^ 32 by
    obtain ⟨hhd, htail⟩ := append_inj heq hlen.1
    exact ⟨hhd, htail, hlen.2⟩
  have h1 := length_encodeLength len'
  cases H with
  | short hlt =>
    rcases lt_or_ge len' 56 with hlt' | hge'
    · rw [header_short hlt']
      exact ⟨rfl, by omega⟩
    · rw [header_long hge'] at heq
      have hbyte := congrArg UInt8.toNat (cons.inj heq).1
      rw [toNat_long isData (by omega), toNat_short isData hlt] at hbyte
      cases isData <;> simp only [bases] at hbyte <;> omega
  | @long bytes len isData hbs h8 =>
    obtain ⟨x, bytes', rfl, -, rfl⟩ := decodeLength_inv hbs h8
    rcases lt_or_ge len' 56 with hlt' | hge'
    · rw [header_short hlt'] at heq
      have hbyte := congrArg UInt8.toNat (cons.inj heq).1
      rw [toNat_long isData h8, toNat_short isData hlt'] at hbyte
      simp only [length_cons] at hbyte
      cases isData <;> simp only [bases] at hbyte <;> omega
    · rw [header_long hge'] at heq ⊢
      have hbyte := congrArg UInt8.toNat (cons.inj heq).1
      rw [toNat_long isData (by omega), toNat_long isData h8] at hbyte
      have hk : (encodeLength len').length = (x :: bytes').length := add_left_cancel hbyte
      refine ⟨congrArg (· + 1) hk, lt_of_lt_of_le (ofBigEndian_lt _) ?_⟩
      exact le_trans (Nat.pow_le_pow_right (by decide) (hk ▸ h1.2)) (by norm_num)

theorem HeaderForm.first_ge (H : HeaderForm h len isData) :
    ∃ x h', h = x :: h' ∧ 0x80 ≤ x.toNat := by
  cases H with
  | short hlt =>
    refine ⟨_, _, rfl, ?_⟩
    rw [toNat_short isData hlt]
    cases isData <;> simp only [bases] <;> omega
  | long _ h8 =>
    refine ⟨_, _, rfl, ?_⟩
    rw [toNat_long isData h8]
    cases isData <;> simp only [bases] <;> omega

theorem encodeBytes_aligned {s : Bytes} (H : Reads (.string s) b)
    (heq : encodeBytes s ++ X = b ++ Y) : encodeBytes s = b ∧ s.length < 2 ^ 32 := by
  obtain ⟨off, hh, hs⟩ := H
  rcases readHeader_inv hh with ⟨byte, b, rfl, hbyte, rfl, hlen, -⟩ | ⟨h, b, rfl, rfl, HF⟩
  · have hlt : byte < 0x80 := UInt8.lt_iff_toNat_lt.mpr (Nat.lt_succ_of_le hbyte)
    subst hs
    cases b with
    | nil => simp [encodeBytes, hlt]
    | cons => cases hlen
  · rw [drop_left] at hs
    subst hs
    rcases encodeBytes_eq b with henc | ⟨x, hx, rfl, henc⟩
    · rw [henc, append_assoc, append_assoc] at heq
      have hkind : kindHeader true b.length ++ (b ++ X) = h ++ (b ++ Y) := heq
      obtain ⟨hhd, -, hlen⟩ := HF.aligned hkind
      rw [henc]
      exact ⟨congrArg (· ++ b) hhd, hlen⟩
    · obtain ⟨y, h', rfl, hy⟩ := HF.first_ge
      rw [henc] at heq
      have := UInt8.lt_iff_toNat_lt.mp hx
      rw [(cons.inj heq).1] at this
      exact absurd hy (not_le.mpr this)

end

mutual

theorem encode_aligned : ∀ (item : RlpItem) {b X Y : Bytes}, Reads item b →
    item.encode ++ X = b ++ Y → item.encode = b ∧ item.Fits
  | .string s, b, X, Y, H, heq => by
    rw [RlpItem.encode] at heq ⊢
    rw [RlpItem.Fits]
    exact encodeBytes_aligned H heq
  | .list items, b, X, Y, H, heq => by
    rw [RlpItem.encode] at heq ⊢
    rw [RlpItem.Fits]
    rw [Reads] at H
    obtain ⟨off, hh, H⟩ := H
    rcases readHeader_inv hh with ⟨_, _, -, -, -, -, h⟩ | ⟨h, payload, rfl, rfl, HF⟩
    · cases h
    · rw [drop_left] at H
      rw [encodePayload, append_assoc, append_assoc] at heq
      obtain ⟨hhd, htail, hlen⟩ := HF.aligned heq
      obtain ⟨hpay, hfits⟩ := encodeAll_aligned items H htail
      rw [length_append, Nat.add_sub_cancel_left] at hlen
      rw [encodePayload, hpay]
      rw [hpay] at hhd
      exact ⟨congrArg (· ++ payload) hhd, hlen, hfits⟩

theorem encodeAll_aligned : ∀ (items : List RlpItem) {b X Y : Bytes}, ReadsAll items b →
    encodeAll items ++ X = b ++ Y → encodeAll items = b ∧ RlpItem.FitsAll items
  | [], b, X, Y, H, _ => by
    rw [ReadsAll] at H
    rw [encodeAll, RlpItem.FitsAll]
    exact ⟨H.symm, trivial⟩
  | item :: items, b, X, Y, H, heq => by
    rw [ReadsAll] at H
    obtain ⟨b₁, b₂, rfl, H₁, H₂⟩ := H
    rw [encodeAll] at heq ⊢
    rw [RlpItem.FitsAll]
    rw [append_assoc, append_assoc] at heq
    obtain ⟨h₁, hfits₁⟩ := encode_aligned item H₁ heq
    rw [h₁, append_cancel_left_eq] at heq
    obtain ⟨h₂, hfits₂⟩ := encodeAll_aligned items H₂ heq
    rw [h₁, h₂]
    exact ⟨rfl, hfits₁, hfits₂⟩

end

theorem shortest_kindHeader (hlen : payload.length < 2 ^ 32)
    (hsm : isData = true → ∀ x, payload = [x] → 0x80 ≤ x) :
    Shortest (kindHeader isData payload.length ++ payload ++ rest)
      (kindHeader isData payload.length).length payload.length isData := by
  rcases (headerForm_kindHeader hlen).eq_kindHeader_iff.mp rfl with h1 | h56
  · refine .inr (.inl ⟨h1, fun hdata hone x hx => ?_⟩)
    rw [append_assoc, getElem?_append_right (le_of_eq h1), h1] at hx
    obtain ⟨y, rfl⟩ := length_eq_one_iff.mp hone
    cases hx
    exact hsm hdata x rfl
  · exact .inr (.inr h56)

theorem minimal_encodeBytes (hlen : s.length < 2 ^ 32) (hrest : Minimal rest) :
    Minimal (encodeBytes s ++ rest) := by
  rcases encodeBytes_eq s with henc | ⟨x, hx, rfl, henc⟩
  · have hh := readHeader_append (readHeader_kindHeader true hlen) rest
    have hsm : ∀ x, s = [x] → 0x80 ≤ x := by
      rintro x rfl
      by_contra hx
      simp [encodeBytes, hx, header] at henc
    rw [show encodeBytes s = kindHeader true s.length ++ s from henc]
    refine .string hh ?_ (shortest_kindHeader hlen fun _ => hsm) ?_
    · rw [length_append, length_append]
      exact Nat.le_add_right _ _
    · rwa [drop_left' length_append]
  · rw [henc]
    have hsm : x.toNat ≤ 0x7f := Nat.le_of_lt_succ (UInt8.lt_iff_toNat_lt.mp hx)
    exact .string (readHeader_small hsm rest) (by simp) (.inl rfl) hrest

theorem minimal_encodePayload (hlen : payload.length < 2 ^ 32)
    (hpay : Minimal payload) (hrest : Minimal rest) : Minimal (encodePayload payload ++ rest) := by
  have hh := readHeader_append (readHeader_kindHeader false hlen) rest
  change Minimal (kindHeader false payload.length ++ payload ++ rest)
  refine .list hh ?_ (shortest_kindHeader hlen nofun) ?_ ?_
  · rw [length_append, length_append]
    exact Nat.le_add_right _ _
  · rwa [append_assoc, drop_left, take_left]
  · rwa [drop_left' length_append]

mutual

theorem minimal_encode : ∀ (item : RlpItem) {rest : Bytes}, item.Fits → Minimal rest →
    Minimal (item.encode ++ rest)
  | .string s, rest, h, hrest => by
    rw [RlpItem.Fits] at h
    rw [RlpItem.encode]
    exact minimal_encodeBytes h hrest
  | .list items, rest, h, hrest => by
    rw [RlpItem.Fits] at h
    rw [RlpItem.encode]
    exact minimal_encodePayload h.1 (minimal_encodeAll items h.2) hrest

theorem minimal_encodeAll : ∀ items : List RlpItem, RlpItem.FitsAll items →
    Minimal (encodeAll items)
  | [], _ => by
    rw [encodeAll]
    exact .nil
  | item :: items, h => by
    rw [RlpItem.FitsAll] at h
    rw [encodeAll]
    exact minimal_encode item h.1 (minimal_encodeAll items h.2)

end

mutual

theorem fits_of_length_lt : ∀ item : RlpItem, item.encode.length < 2 ^ 32 → item.Fits
  | .string s, h => by
    rw [RlpItem.encode] at h
    rw [RlpItem.Fits]
    rcases encodeBytes_eq s with henc | ⟨x, -, rfl, -⟩
    · rw [henc, length_append] at h
      omega
    · simp
  | .list items, h => by
    rw [RlpItem.encode, encodePayload, length_append] at h
    rw [RlpItem.Fits]
    exact ⟨by omega, fitsAll_of_length_lt items (by omega)⟩

theorem fitsAll_of_length_lt : ∀ items : List RlpItem, (encodeAll items).length < 2 ^ 32 →
    RlpItem.FitsAll items
  | [], _ => by
    rw [RlpItem.FitsAll]
    trivial
  | item :: items, h => by
    rw [encodeAll, length_append] at h
    rw [RlpItem.FitsAll]
    exact ⟨fits_of_length_lt item (by omega), fitsAll_of_length_lt items (by omega)⟩

end

/-- The reader reads all of `b` as `item`. -/
def Accepts (reader : Read RlpItem) (b : Bytes) (item : RlpItem) : Prop :=
  ∃ d, reader (.new b) = .ok item d ∧ d.position = b.length

section
variable {b : Bytes} {item : RlpItem}

theorem Accepts.reads (h : Accepts RlpItem.decode b item) : Reads item b := by
  obtain ⟨d, hd, hpos⟩ := h
  obtain ⟨b', ⟨⟨tail, htail⟩, rfl⟩, H⟩ := decode_inv hd
  rw [Decoder.rest_new] at htail
  rw [Decoder.advance_position] at hpos
  have hlen := congrArg length htail
  rw [length_append] at hlen
  have hnil : tail = [] := length_eq_zero_iff.mp (by simp only [Decoder.new] at hpos; omega)
  rwa [← htail, hnil, append_nil]

theorem minimal_of_encode_eq (hfits : item.Fits) (heq : encode item = b) : Minimal b := by
  rw [← heq, ← append_nil (encode item)]
  exact minimal_encode item hfits .nil

theorem encode_eq_of_minimal {rd : Read RlpItem} (hsl : b.length ≤ isizeMax)
    (hrd : ∀ {item b}, Reads item b → Yields rd item b) (hend : ∀ {item}, ¬Accepts rd [] item)
    (h : Accepts rd b item) (hb : Minimal b) : encode item = b := by
  obtain ⟨items, H, heq⟩ := hb.exists_items
  cases items with
  | nil =>
    subst H
    exact absurd h hend
  | cons first items =>
    obtain ⟨b₁, b₂, rfl, H₁, H₂⟩ := H
    obtain ⟨d, hd, hpos⟩ := h
    rw [hrd H₁ (.new (b₁ ++ b₂)) b₂ hsl rfl] at hd
    cases hd
    have hnil : b₂ = [] := by
      rw [Decoder.advance_position, length_append] at hpos
      exact length_eq_zero_iff.mp (by simp only [Decoder.new] at hpos; omega)
    rw [hnil, append_nil]
    exact (encode_aligned _ H₁ heq).1

end

theorem decode_rejects_nil : ¬Accepts RlpItem.decode [] item := by
  rintro ⟨d, hd, -⟩
  cases hd

theorem decodeItem_rejects_nil : ¬Accepts decodeItem [] item := by
  rintro ⟨d, hd, -⟩
  cases hd

theorem encode_eq_iff (hsl : b.length ≤ isizeMax)
    (h : Accepts RlpItem.decode b item) : encode item = b ↔ Minimal b := by
  constructor
  · intro heq
    have happ : item.encode ++ [] = b ++ [] := congrArg (· ++ []) heq
    exact minimal_of_encode_eq (encode_aligned item h.reads happ).2 heq
  · exact encode_eq_of_minimal hsl decode_yields decode_rejects_nil h

/-- On what `RlpItem::decode` accepts and consumes, encoding gives back the bytes exactly when they
are minimal, and so minimal strings with the same item are equal. `decode_item` accepts more, but of
these a minimal string is given back too, and up to 4 GiB no other one is. -/
theorem encode_decode_iff_minimal (b : Bytes) (hsl : b.length ≤ isizeMax) (item : RlpItem) :
    (Accepts RlpItem.decode b item →
        (encode item = b ↔ Minimal b) ∧
        ∀ b', b'.length ≤ isizeMax → Accepts RlpItem.decode b' item → Minimal b → Minimal b' →
          b' = b) ∧
      (Accepts decodeItem b item →
        (Minimal b → encode item = b) ∧ (b.length < 2 ^ 32 → encode item = b → Minimal b)) := by
  refine ⟨fun h => ⟨encode_eq_iff hsl h, ?_⟩, fun h => ⟨?_, ?_⟩⟩
  · intro b' hsl' h' hb hb'
    rw [← (encode_eq_iff hsl' h').mpr hb', (encode_eq_iff hsl h).mpr hb]
  · exact encode_eq_of_minimal hsl decodeItem_yields decodeItem_rejects_nil h
  · intro hlen heq
    exact minimal_of_encode_eq (fits_of_length_lt item (by rwa [← heq] at hlen)) heq

theorem encode_decode_iff_minimal_list :
    Accepts RlpItem.decode [0xc2, 0x01, 0x80] (.list [.string [1], .string []]) ∧
      (encode (RlpItem.list [.string [1], .string []]) = [0xc2, 0x01, 0x80] ↔
        Minimal [0xc2, 0x01, 0x80]) :=
  have h : Accepts RlpItem.decode [0xc2, 0x01, 0x80] (.list [.string [1], .string []]) :=
    ⟨_, rfl, rfl⟩
  ⟨h, ((encode_decode_iff_minimal [0xc2, 0x01, 0x80] (by decide) _).1 h).1⟩

/-- A single small byte behind a header is accepted, as the item that the byte alone stands for. -/
theorem wrapped_byte_accepted :
    Accepts RlpItem.decode [0x81, 0x05] (.string [5]) ∧
      Accepts RlpItem.decode [0x05] (.string [5]) ∧
      encode (RlpItem.string [5]) = [0x05] :=
  ⟨⟨_, rfl, rfl⟩, ⟨_, rfl, rfl⟩, rfl⟩

end EthereumRust.Rlp
