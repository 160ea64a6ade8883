import EthereumRust.Filter.LogFilter

/-!
# Headers (`crates/verification/src/header.rs`)

A header is checked on its own and against its parent, which is read from the database; a chain of
headers is checked one by one, and each has to name the one before it as its parent. The parent is
looked at only if the number is not zero. So a header with number zero is accepted anywhere in a
chain.
-/

namespace EthereumRust.Verification

open Rust EthereumRust.Core List UInt64
open EthereumRust.Filter (Database Bincode StorageError hexEncode)

inductive VerificationError where
  | invalidBlock (message : String)
  | invalidTransaction (message : String)
  | invalidHeader (message : String)
  | invalidState (message : String)
  | parentNotFound
  | stateRootMismatch
  | gasLimitExceeded
  | storageError (error : StorageError)
  deriving DecidableEq, Repr

structure HeaderVerifier (D : Type) where
  db : D

namespace HeaderVerifier

def verifyBasicConstraints (header : Header) : Call VerificationError Unit :=
  if header.gasLimit < header.gasUsed then
    Call.fail (.invalidHeader ("Gas used " ++ toString header.gasUsed.toNat ++
      " exceeds gas limit " ++ toString header.gasLimit.toNat))
  else if header.number = U256.MAX then Call.fail (.invalidHeader "Block number overflow")
  else .ok ()

def headerKey (hash : H256) : Bytes := asBytes ("header:" ++ hexEncode hash.toList)

def verifyTimestamp [Build] (now : UInt64) (header : Header) : Call VerificationError Unit := do
  if header.timestamp = 0 then Call.fail (.invalidHeader "Timestamp cannot be zero")
  else
    let latest ← plusU64 now 900
    if latest < header.timestamp then
      Call.fail (.invalidHeader ("Timestamp too far in future: " ++ toString header.timestamp ++
        " > " ++ toString latest))
    else .ok ()

def verifyGasLimit (header : Header) : Call VerificationError Unit :=
  if header.gasLimit < .ofNat 256 5000 then
    Call.fail (.invalidHeader
      ("Gas limit too low: " ++ toString header.gasLimit.toNat ++ " < 5000"))
  else if .ofNat 256 0x7fffffffffffffff < header.gasLimit then
    Call.fail (.invalidHeader ("Gas limit too high: " ++ toString header.gasLimit.toNat ++
      " > 9223372036854775807"))
  else .ok ()

def verifyGasLimitAdjustment (header parent : Header) : Call VerificationError Unit := do
  let parentGas ← parent.gasLimit.asU64
  let adjustmentLimit := parentGas / 1024
  let currentGas ← header.gasLimit.asU64
  if parentGas < currentGas then
    if adjustmentLimit < currentGas - parentGas then
      Call.fail (.invalidHeader ("Gas limit increase too large: " ++
        toString (currentGas - parentGas) ++ " > " ++ toString adjustmentLimit))
    else .ok ()
  else
    if adjustmentLimit < parentGas - currentGas then
      Call.fail (.invalidHeader ("Gas limit decrease too large: " ++
        toString (parentGas - currentGas) ++ " > " ++ toString adjustmentLimit))
    else .ok ()

def verifyExtraData (header : Header) : Call VerificationError Unit :=
  let extraSize :=
    if 65 < header.extraData.length then header.extraData.length - 65 else header.extraData.length
  if 32 < extraSize then
    Call.fail (.invalidHeader ("Extra data too large: " ++ toString extraSize ++ " > 32"))
  else .ok ()

section
variable [Database D] (self : HeaderVerifier D)

def read (key : Bytes) : Call VerificationError (Option Bytes) :=
  match Database.get self.db key with
  | .ok value => .ok value
  | .error e => Call.fail (.storageError e)

def verifyParentExists (header : Header) : Call VerificationError Unit := do
  match ← self.read (headerKey header.parentHash) with
  | some _ => return ()
  | none => Call.fail .parentNotFound

variable [Bincode Header]

def getParentHeader (header : Header) : Call VerificationError Header := do
  match ← self.read (headerKey header.parentHash) with
  | none => Call.fail .parentNotFound
  | some parentData =>
    match Bincode.deserialize parentData with
    | some parent => return parent
    | none => Call.fail (.invalidHeader "Failed to deserialize parent header")

def verifyAgainstParent (header : Header) : Call VerificationError Unit := do
  let parent ← self.getParentHeader header
  let expected ← parent.number.add 1
  if header.number ≠ expected then
    Call.fail (.invalidHeader ("Invalid block number: expected " ++ toString expected.toNat ++
      ", got " ++ toString header.number.toNat))
  else if header.timestamp ≤ parent.timestamp then
    Call.fail (.invalidHeader "Timestamp not greater than parent")
  else verifyGasLimitAdjustment header parent

def verifyParent (header : Header) : Call VerificationError Unit := do
  if 0 < header.number then
    self.verifyParentExists header
    self.verifyAgainstParent header
  else return ()

variable [Build]

def verify (now : UInt64) (header : Header) : Call VerificationError Unit := do
  verifyBasicConstraints header
  self.verifyParent header
  verifyTimestamp now header
  verifyGasLimit header
  verifyExtraData header

variable [Crypto]

/-- The loop of `verify_chain` from header `i` on, where `previous` is the header before it. The
clock is read once for every header. -/
def verifyLinks (clock : Nat → UInt64) : Nat → Header → List Header → Call VerificationError Unit
  | _, _, [] => .ok ()
  | i, previous, header :: headers => do
    self.verify (clock i) header
    if header.parentHash ≠ previous.hash then
      Call.fail (.invalidHeader "Headers do not form a chain")
    else verifyLinks clock (i + 1) header headers

def verifyChain (clock : Nat → UInt64) : List Header → Call VerificationError Unit
  | [] => .ok ()
  | header :: headers => do
    self.verify (clock 0) header
    self.verifyLinks clock 1 header headers

end

structure Extends [Crypto] (parent child : Header) : Prop where
  number : child.number.toNat = parent.number.toNat + 1
  parentHash : child.parentHash = parent.hash
  timestamp : parent.timestamp < child.timestamp
  gasLimit_le : child.gasLimit.toNat ≤ parent.gasLimit.toNat + parent.gasLimit.toNat / 1024
  le_gasLimit : parent.gasLimit.toNat ≤ child.gasLimit.toNat + parent.gasLimit.toNat / 1024

section
variable {par : Header}

theorem Extends.number_ne_zero [Crypto] (h : Extends par header) : header.number ≠ 0 := by
  intro hzero
  have hnum := h.number
  rw [hzero] at hnum
  change 0 = _ + 1 at hnum
  omega

theorem of_verifyGasLimitAdjustment (h : verifyGasLimitAdjustment header par = .ok ()) :
    header.gasLimit.toNat ≤ par.gasLimit.toNat + par.gasLimit.toNat / 1024 ∧
      par.gasLimit.toNat ≤ header.gasLimit.toNat + par.gasLimit.toNat / 1024 := by
  obtain ⟨parentGas, hpar, h⟩ := Call.checked_bind_eq_ok.mp h
  obtain ⟨currentGas, hcur, h⟩ := Call.checked_bind_eq_ok.mp h
  rw [U256.asU64_eq_ok] at hpar hcur
  have hlim : (parentGas / 1024).toNat = parentGas.toNat / 1024 := UInt64.toNat_div _ _
  rw [← hpar]
  by_cases hgt : parentGas < currentGas
  · rw [if_pos hgt] at h
    have hinc := (Call.guard_eq_ok.mp h).1
    rw [lt_iff_toNat_lt, UInt64.toNat_sub_of_le _ _ (UInt64.le_of_lt hgt)] at hinc
    rw [lt_iff_toNat_lt] at hgt
    omega
  · rw [if_neg hgt] at h
    have hdec := (Call.guard_eq_ok.mp h).1
    rw [lt_iff_toNat_lt, UInt64.toNat_sub_of_le _ _ (UInt64.not_lt.mp hgt)] at hdec
    rw [lt_iff_toNat_lt] at hgt
    omega

end

section
variable [Database D] [Bincode Header] {self : HeaderVerifier D}
  {prev : Header} {headers : List Header}

/-- What the database has under the hash of a header is that header. -/
def Holds [Crypto] (db : D) (header : Header) : Prop :=
  ∀ data, Database.get db (headerKey header.hash) = .ok (some data) →
    Bincode.deserialize data = some header

theorem of_getParentHeader (h : self.getParentHeader header = .ok par) :
    ∃ data, Database.get self.db (headerKey header.parentHash) = .ok (some data) ∧
      Bincode.deserialize data = some par := by
  obtain ⟨found, hread, h⟩ := h.of_bind
  rw [read] at hread
  cases found with
  | none => cases h
  | some data =>
    refine ⟨data, ?_, ?_⟩
    · cases hget : Database.get self.db (headerKey header.parentHash) with
      | error e =>
        rw [hget] at hread
        cases hread
      | ok value =>
        rw [hget] at hread
        cases hread
        rfl
    · cases hdata : (Bincode.deserialize data : Option Header) with
      | none =>
        simp only [hdata] at h
        cases h
      | some found =>
        simp only [hdata] at h
        cases h
        rfl

theorem of_verifyAgainstParent [Crypto] (h : self.verifyAgainstParent header = .ok ())
    (hpar : header.parentHash = prev.hash) (hdb : Holds self.db prev) : Extends prev header := by
  obtain ⟨par, hget, h⟩ := h.of_bind
  obtain ⟨expected, hexp, h⟩ := Call.checked_bind_eq_ok.mp h
  obtain ⟨hnum, h⟩ := Call.guard_eq_ok.mp h
  obtain ⟨hts, h⟩ := Call.guard_eq_ok.mp h
  obtain ⟨data, hdata, hdes⟩ := of_getParentHeader hget
  rw [hpar] at hdata
  obtain rfl : par = prev := by
    rw [hdb data hdata] at hdes
    exact (Option.some.inj hdes).symm
  obtain ⟨hgas, hgas'⟩ := of_verifyGasLimitAdjustment h
  refine ⟨?_, hpar, UInt64.not_le.mp hts, hgas, hgas'⟩
  rw [not_not.mp hnum]
  exact U256.add_eq_ok.mp hexp

theorem of_verify [Build] [Crypto] (h : self.verify now header = .ok ()) (hnum : header.number ≠ 0)
    (hpar : header.parentHash = prev.hash) (hdb : Holds self.db prev) : Extends prev header := by
  obtain ⟨-, h⟩ := Call.check_bind_eq_ok.mp h
  obtain ⟨h, -⟩ := Call.check_bind_eq_ok.mp h
  have hpos : 0 < header.number := by
    exact Nat.pos_of_ne_zero fun hzero => hnum (BitVec.eq_of_toNat_eq hzero)
  rw [verifyParent, if_pos hpos] at h
  obtain ⟨-, h⟩ := Call.check_bind_eq_ok.mp h
  exact of_verifyAgainstParent h hpar hdb

theorem verifyLinks_isChain_iff [Build] [Crypto] {clock : Nat → UInt64}
    (h : self.verifyLinks clock i prev headers = .ok ())
    (hdb : ∀ header ∈ prev :: headers, Holds self.db header) :
    List.IsChain Extends (prev :: headers) ↔ ∀ header ∈ headers, header.number ≠ 0 := by
  induction headers generalizing i prev with
  | nil => simp
  | cons header headers ih =>
    obtain ⟨hver, h⟩ := Call.check_bind_eq_ok.mp h
    obtain ⟨hpar, h⟩ := Call.guard_eq_ok.mp h
    rw [isChain_cons_cons, forall_mem_cons, ih h fun header hhd => hdb header (.tail _ hhd)]
    refine and_congr_left fun _ => ⟨Extends.number_ne_zero, fun hnum => ?_⟩
    exact of_verify hver hnum (not_not.mp hpar) (hdb prev mem_cons_self)

end

/-- In a chain that is accepted, adjacent headers fit together exactly if no header after the first
has number zero. -/
theorem verifyChain_isChain_iff {D : Type} [Database D] [Bincode Header] [Build] [Crypto]
    (self : HeaderVerifier D) (clock : Nat → UInt64) (headers : List Header)
    (hdb : ∀ header ∈ headers, Holds self.db header) (h : self.verifyChain clock headers = .ok ()) :
    List.IsChain Extends headers ↔ ∀ header ∈ headers.tail, header.number ≠ 0 := by
  cases headers with
  | nil => simp
  | cons header headers =>
    obtain ⟨-, h⟩ := Call.check_bind_eq_ok.mp h
    exact verifyLinks_isChain_iff h hdb

namespace Sample

open Sized Rust.Debug Filter.LogFilter.Sample

def genesis : Header := { Header.new with gasLimit := 5000, timestamp := 1 }

def child (number : U256) : Header :=
  { Header.new with
    parentHash := genesis.hash, number, gasLimit := 5004, timestamp := 2, extraData := [0, 0] }

scoped instance : Bincode Header := ⟨fun _ => some genesis⟩

def verifier : HeaderVerifier (List (Bytes × Bytes)) := ⟨[(headerKey genesis.hash, [])]⟩

theorem holds (number : U256)
    (h : Database.get verifier.db (headerKey (child number).hash) = .ok none) :
    ∀ header ∈ [genesis, child number], Holds verifier.db header := by
  refine forall_mem_cons.mpr ⟨fun _ _ => rfl, forall_mem_singleton.mpr ?_⟩
  intro data hdata
  rw [h] at hdata
  cases hdata

theorem verifyChain_isChain_one : List.IsChain Extends [genesis, child 1] :=
  (verifyChain_isChain_iff verifier (fun _ => 0) [genesis, child 1] (holds 1 (by decide +kernel))
    (by decide +kernel)).mpr (by decide +kernel)

/-- A header of number 0 is not compared with its parent. -/
theorem verifyChain_zero_after_zero :
    verifier.verifyChain (fun _ => 0) [genesis, child 0] = .ok () ∧
      (∀ header ∈ [genesis, child 0], Holds verifier.db header) ∧
      ¬List.IsChain Extends [genesis, child 0] := by
  refine ⟨by decide +kernel, holds 0 (by decide +kernel), fun h => ?_⟩
  exact absurd (isChain_pair.mp h).number (by decide)

end Sample

end HeaderVerifier

end EthereumRust.Verification
