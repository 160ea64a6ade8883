import EthereumRust.Core.Transaction
import EthereumRust.Rlp.Strings

/-!
# Decoding an encoded transaction

A field of a legacy transaction is encoded twice, once by `ethereum_rlp::encode` and once more as an
item of the list, and decoded once.

The decoders of the typed transactions begin with the chain id. They never read the header of the
list that the encoders write, so `u64::decode` finds a list.
-/

namespace EthereumRust.Core
open Rust Method Rlp List

theorem decode_optionAddress_ne_ok (h0 : 0 < s.length) (h20 : s.length ≠ 20)
    (hlen : s.length < 2 ^ 32) : decode (Option Address) (encodeBytes s) ≠ .ok toAddress d' := by
  intro h
  obtain ⟨empty, d₁, hemp, h⟩ := bind_eq_ok.mp h
  obtain ⟨rfl, hfst⟩ := isEmptyString_inv hemp
  cases empty with
  | true =>
    -- the byte 0x80 announces an empty string
    obtain ⟨tail, htail⟩ := hfst rfl
    have H := reads_encodeBytes hlen
    obtain ⟨off, hh, -⟩ := H
    rw [Decoder.rest_new] at htail
    have hzero : readHeader (0x80 :: tail) = .ok (1, 0, true) := by simp [readHeader]
    rw [htail, hzero] at hh
    simp only [Except.ok.injEq, Prod.mk.injEq] at hh
    omega
  | false =>
    obtain ⟨addr, d₂, haddr, -⟩ := bind_eq_ok.mp h
    have hs := decodeBytes_encodeBytes hlen (decodeArray_inv haddr)
    exact h20 (by rw [← hs]; exact addr.2)

theorem length_encode_toAddress (toAddress : Option Address) :
    (encode toAddress).length = 1 ∨ (encode toAddress).length = 21 := by
  cases toAddress with
  | none => exact .inl rfl
  | some addr =>
    refine .inr ?_
    change (encodeBytes addr.toList).length = 21
    rw [encodeBytes_of_length (by simp), length_append, List.Vector.toList_length]
    rfl

theorem decodeField_ok [Decode α] {a : α}
    (h : decodeField α item d = .ok a d') : ∃ t, decode α (encode item) = .ok a t := by
  unfold decodeField at h
  cases hitem : decode α (encode item) with
  | ok a' t =>
    rw [hitem] at h
    cases h
    exact ⟨t, rfl⟩
  | err e t => rw [hitem] at h; cases h
  | panic p => rw [hitem] at h; cases h

theorem encode_bytes : encode s = encodeBytes s := rfl

theorem length_trimmedBigEndian (width value : Nat) :
    (trimmedBigEndian width value).length ≤ width := by
  unfold trimmedBigEndian
  split_ifs
  · exact Nat.zero_le _
  · exact le_trans (dropWhile_suffix _).length_le (le_of_eq (length_toBigEndian _ _))

theorem length_encode_u256 (value : U256) : (encode value).length ≤ 33 := by
  have hlen := length_trimmedBigEndian 32 value.toNat
  exact le_trans (length_encodeBytes_le (by omega)) (by omega)

/-- No encoded legacy transaction can be decoded. -/
theorem legacy_decode_encode_never (tx tx' : LegacyTransaction) (d : Decoder) :
    decode LegacyTransaction (encode tx) ≠ .ok tx' d := by
  intro h
  obtain ⟨items, d₁, hits, h⟩ := bind_eq_ok.mp h
  split at h
  · obtain ⟨_, _, -, h⟩ := bind_eq_ok.mp h
    obtain ⟨_, _, -, h⟩ := bind_eq_ok.mp h
    obtain ⟨_, _, -, h⟩ := bind_eq_ok.mp h
    obtain ⟨_, _, hfie, -⟩ := bind_eq_ok.mp h
    obtain ⟨t, hfie⟩ := decodeField_ok hfie
    obtain ⟨b, H, X, hX⟩ := readsAll_of_decodeList hits
    -- the first four fields are short, so they survive whatever follows them
    have hstr : ∀ s ∈ [encode tx.nonce, encode tx.gasPrice, encode tx.gasLimit,
        encode tx.toAddress], s.length < 2 ^ 32 := by
      have h₀ := length_encode_u256 tx.nonce
      have h₁ := length_encode_u256 tx.gasPrice
      have h₂ := length_encode_u256 tx.gasLimit
      have h₃ := length_encode_toAddress tx.toAddress
      simp only [mem_cons, not_mem_nil, or_false]
      rintro s (rfl | rfl | rfl | rfl) <;> omega
    have hpre := readsAll_strings H (by simp) hstr (by simpa [encode_bytes] using hX)
    obtain ⟨-, -, -, rfl, -⟩ := hpre
    have hlen := length_encode_toAddress tx.toAddress
    exact decode_optionAddress_ne_ok (by omega) (by omega) (by omega) hfie
  · exact absurd h fail_ne_ok

def creation : LegacyTransaction where
  nonce := 1
  gasPrice := 1
  gasLimit := 1
  toAddress := none
  value := 1
  data := []
  v := 27
  r := 1
  s := 1

/-- Every field is encoded twice and decoded once, and no recipient is then the byte 0x80. -/
theorem creation_rejected :
    decode LegacyTransaction (encode creation) = .err (.invalidData "Invalid address length: 1")
      ⟨encode creation, (encode creation).length⟩ := by
  decide +kernel

theorem decodeU64_bind_ne_ok :
    ((Decode.decode : Read UInt64) >>= rest) (.new (encodePayload payload)) ≠ .ok a d := by
  intro h
  obtain ⟨_, _, hnum, -⟩ := bind_eq_ok.mp h
  obtain ⟨_, _, huint, -⟩ := bind_eq_ok.mp hnum
  obtain ⟨_, _, hbs, -⟩ := bind_eq_ok.mp huint
  exact decodeBytes_encodePayload_ne_ok hbs

/-- No encoded transaction of the four typed kinds can be decoded, whatever its fields and lists
are. -/
theorem typed_decode_encode_never (tx2930 : Eip2930Transaction) (tx1559 : Eip1559Transaction)
    (tx4844 : Eip4844Transaction) (tx7702 : Eip7702Transaction) :
    (∀ tx d, decode Eip2930Transaction (encode tx2930) ≠ .ok tx d) ∧
    (∀ tx d, decode Eip1559Transaction (encode tx1559) ≠ .ok tx d) ∧
    (∀ tx d, decode Eip4844Transaction (encode tx4844) ≠ .ok tx d) ∧
    ∀ tx d, decode Eip7702Transaction (encode tx7702) ≠ .ok tx d := by
  refine ⟨?_, ?_, ?_, ?_⟩
  all_goals
    intro tx d
    exact decodeU64_bind_ne_ok

def transfer : Eip1559Transaction where
  chainId := 1
  nonce := 1
  maxPriorityFeePerGas := 1
  maxFeePerGas := 1
  gasLimit := 1
  toAddress := some Address.zero
  value := 1
  data := []
  accessList := []
  yParity := false
  r := 1
  s := 1

/-- The fields are encoded as a list, and the decoder does not read its header. -/
theorem transfer_rejected :
    decode Eip1559Transaction (encode transfer) =
      .err (.invalidData "Expected data, got list") (.new (encode transfer)) := by
  decide +kernel

end EthereumRust.Core
