import EthereumRust.Consensus.Config

/-!
# The Clique engine (`crates/consensus`: `clique.rs`)

Signers take turns to seal blocks, and vote with the blocks they seal on who is a signer. A vote
stays on record until its proposal is decided, whoever has cast it.

Which bytes a signer signs is left to `bincode`, a parameter here.
-/

namespace EthereumRust.Consensus
open Rust Method EthereumRust.Core

class HeaderBincode where
  serialize : Header → Bytes

structure Clique where
  config : ConsensusConfig
  signers : List Address
  recentSigners : List (U256 × Address)
  /-- `true` = add, `false` = remove. -/
  proposals : HashMap Address Bool
  votes : HashMap Address (HashMap Address Bool)

namespace Clique

def new (config : ConsensusConfig) : Clique where
  config
  signers := config.validators
  recentSigners := []
  proposals := ∅
  votes := ∅

def isAuthorized (self : Clique) (signer : Address) : Bool := signer ∈ self.signers

def signingHash [Crypto] [HeaderBincode] (header : Header) : H256 :=
  let extraData := if 65 ≤ header.extraData.length
    then header.extraData.take (header.extraData.length - 65) else header.extraData
  keccak256 (HeaderBincode.serialize { header with extraData })

def getSigner [Crypto] [Recovery] [HeaderBincode] (header : Header) :
    Except ConsensusError Address := do
  if header.extraData.length < 65 then
    throw (.invalidSignature "Missing signature in extra data")
  let sigBytes := header.extraData.drop (header.extraData.length - 65)
  match signatureFromBytes sigBytes with
  | .error _ => throw (.invalidSignature "Invalid signature format")
  | .ok signature =>
    match recoverAddress (signingHash header) signature with
    | .error _ => throw (.invalidSignature "Failed to recover signer")
    | .ok signer => return signer

def limit (self : Clique) : Nat := self.signers.length / 2

def signedWithin (limit : Nat) (signer : Address) (blockNumber : U256) :
    List (U256 × Address) → Checked Bool
  | [] => .ok false
  | (num, recentSigner) :: rest => do
    let age ← U256.sub blockNumber num
    if age.toNat ≤ limit ∧ recentSigner = signer then return true
    else signedWithin limit signer blockNumber rest

def hasSignedRecently (self : Clique) (signer : Address) (blockNumber : U256) : Checked Bool :=
  signedWithin self.limit signer blockNumber self.recentSigners

def dropOld (limit : Nat) (blockNumber : U256) :
    List (U256 × Address) → Checked (List (U256 × Address))
  | [] => .ok []
  | (num, signer) :: rest => do
    let age ← U256.sub blockNumber num
    if limit < age.toNat then dropOld limit blockNumber rest
    else return (num, signer) :: rest

def updateRecentSigners (self : Clique) (blockNumber : U256) (signer : Address) :
    Checked Clique := do
  let recentSigners ← dropOld self.limit blockNumber (self.recentSigners ++ [(blockNumber, signer)])
  return { self with recentSigners }

def voteOf (self : Clique) (voter proposal : Address) : Option Bool :=
  (self.votes.lookup voter).bind fun votes => votes.lookup proposal

def recordVote (self : Clique) (signer proposal : Address) (vote : Bool) : Clique :=
  let votes := (self.votes.lookup signer).getD ∅
  { self with votes := self.votes.insert signer (votes.insert proposal vote) }

/-- `add_votes` and `remove_votes`: the entries of the map that hold the vote, for every voter. -/
def countVotes (self : Clique) (proposal : Address) (vote : Bool) : Nat :=
  self.votes.entries.countP fun entry => entry.2.lookup proposal = some vote

def clearVotesFor (address : Address) (self : Clique) : Clique :=
  { self with votes := self.votes.mapValues fun votes => votes.erase address }

def threshold (self : Clique) : Nat := self.signers.length / 2 + 1

def processVote (self : Clique) (header : Header) (signer : Address) : Clique :=
  if header.beneficiary = Address.zero then self
  else
    let proposal := header.beneficiary
    let vote := header.nonce != 0
    let self := self.recordVote signer proposal vote
    if self.threshold ≤ self.countVotes proposal true ∧ proposal ∉ self.signers then
      clearVotesFor proposal { self with signers := self.signers ++ [proposal] }
    else if self.threshold ≤ self.countVotes proposal false ∧ proposal ∈ self.signers then
      clearVotesFor proposal { self with signers := self.signers.filter (· ≠ proposal) }
    else self

def calculateNextTimestamp (self : Clique) (parent : Header) (signer : Address) :
    Checked UInt64 := do
  let period := self.config.blockPeriod
  let signerIndex := (self.signers.findIdx? (· = signer)).getD 0
  let number ← parent.number.asU64
  let next ← addU64 number 1
  let turn ← remUsize next.toNat self.signers.length
  let time ← addU64 parent.timestamp period
  if signerIndex = turn then return time else addU64 time (period / 2)

def extraData : Bytes := List.replicate 32 0

def produceBlock [Crypto] (self : Clique) (parent : Header) (transactions : List Transaction)
    (beneficiary : Address) : Checked Block := do
  let blockNumber ← U256.add parent.number 1
  let number ← blockNumber.asU64
  let turn ← remUsize number.toNat self.signers.length
  match self.signers[turn]? with
  | none => .error .slice
  | some inTurn =>
    let difficulty : U256 := if inTurn = beneficiary then 2 else 1
    let timestamp ← self.calculateNextTimestamp parent beneficiary
    let header : Header :=
      { Header.new with
        parentHash := parent.hash
        ommersHash := emptyUnclesHash
        beneficiary, difficulty
        number := blockNumber
        gasLimit := parent.gasLimit
        timestamp, extraData }
    return { header, transactions, ommers := [], withdrawals := none }

/-- `get_parent_header`: a mock with the latest timestamp that the block period allows. -/
def getParentHeader (self : Clique) (header : Header) : Header :=
  { Header.new with timestamp := saturatingSub header.timestamp self.config.blockPeriod }

def validateBlock [Crypto] [Recovery] [HeaderBincode] (block : Block) :
    Method Clique ConsensusError Unit := do
  let self ← read id
  let header := block.header
  let signer ← result (getSigner header)
  if !self.isAuthorized signer then
    fail (.invalidBlock ("Unauthorized signer: " ++ debugAddress signer))
  if ← self.hasSignedRecently signer header.number then
    fail (.invalidBlock "Signer has signed too recently")
  if 0 < header.number then
    let earliest ← addU64 (self.getParentHeader header).timestamp self.config.blockPeriod
    if header.timestamp < earliest then
      fail (.invalidBlock "Block too early")
  if header.difficulty ≠ 1 ∧ header.difficulty ≠ 2 then
    fail (.invalidBlock "Invalid difficulty for Clique")

end Clique

end EthereumRust.Consensus
