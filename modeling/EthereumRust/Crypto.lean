import EthereumRust.Types

/-!
# Hashing and signatures (`crates/crypto`)

`keccak256` is a parameter: its source is the `sha3` crate. So is the recovery of an address from a
signature, which is left to the `secp256k1` crate.
-/

namespace EthereumRust

class Crypto where
  keccak256 : List UInt8 → H256

export Crypto (keccak256)

structure Signature where
  r : H256
  s : H256
  v : UInt8
  deriving DecidableEq

inductive CryptoError where
  | invalidSignature
  | invalidPublicKey
  | invalidPrivateKey
  | secp256k1
  deriving DecidableEq, Repr

class Recovery where
  recoverAddress : H256 → Signature → Except CryptoError Address
  /-- The `recover_address` of four arguments that `eip7702.rs` calls and no crate defines. -/
  recoverAddressOfParts : H256 → UInt8 → H256 → H256 → Except CryptoError Address

export Recovery (recoverAddress recoverAddressOfParts)

namespace Unhashed

scoped instance : Crypto := ⟨fun _ => H256.zero⟩

end Unhashed

namespace Sized

scoped instance : Crypto :=
  ⟨fun data => ⟨Rust.toBigEndian 32 data.length, Rust.length_toBigEndian ..⟩⟩

end Sized

namespace Horner

scoped instance : Crypto := ⟨fun data => ⟨Rust.toBigEndian 32
  (data.foldl (fun acc byte => acc * 257 + byte.toNat + 1) 0), Rust.length_toBigEndian ..⟩⟩

end Horner

namespace Unrecovered

scoped instance : Recovery where
  recoverAddress _ _ := .error .invalidSignature
  recoverAddressOfParts _ _ _ _ := .error .invalidSignature

end Unrecovered

namespace SelfSigned

scoped instance : Recovery where
  recoverAddress _ signature := .ok ⟨signature.r.toList.take 20, by simp⟩
  recoverAddressOfParts _ _ _ _ := .error .invalidSignature

end SelfSigned

end EthereumRust
