import EthereumRust.Consensus.Eip7251
import EthereumRust.Lib.History

/-!
# Caps and totals of validator balances

Every method keeps the effective balance of a validator under its cap. The totals are not kept. A
deposit that goes over the cap replaces what was pending from an earlier one. A consolidation adds
the balance of the source to the target and does not take it from the source.
-/

namespace EthereumRust.Consensus
open Rust Rust.Method Method
open List hiding count

namespace ValidatorEip7251
variable [BalanceConstants] {self self' : ValidatorEip7251} {amount : U256}

theorem addBalance_cases (h : self.addBalance amt = .ok self') :
    let total := self.effectiveBalance.toNat + amt.toNat
    let cap := self.getMaxEffectiveBalance
    cap.toNat < total ∧ (∃ pend : U256, pend.toNat + cap.toNat = total ∧
        self' = { self with effectiveBalance := cap, pendingBalanceToDeposit := pend }) ∨
      total ≤ cap.toNat ∧ ∃ effective : U256, effective.toNat = total ∧
        self' = { self with effectiveBalance := effective } := by
  obtain ⟨newBalance, hnew, h⟩ := h.of_bind
  rw [U256.add_eq_ok] at hnew
  dsimp only at h ⊢
  split_ifs at h with hcap
  · obtain ⟨pend, hpnd, h⟩ := h.of_bind
    cases h
    exact .inl ⟨hnew ▸ hcap, pend, (U256.sub_eq_ok.mp hpnd).trans hnew, rfl⟩
  · cases h
    exact .inr ⟨hnew ▸ not_lt.mp hcap, newBalance, hnew, rfl⟩

theorem consolidateBalance_cases (h : self.consolidateBalance = .ok (amt, self')) :
    let total := self.effectiveBalance.toNat + self.pendingBalanceToDeposit.toNat
    let cap := self.getMaxEffectiveBalance
    ∃ effective pend : U256, effective.toNat + pend.toNat = total ∧ effective ≤ cap ∧
      self' = { self with effectiveBalance := effective, pendingBalanceToDeposit := pend } := by
  obtain ⟨newEffective, hnew, h⟩ := h.of_bind
  rw [U256.add_eq_ok] at hnew
  split_ifs at h with hcap
  · obtain ⟨pend, hpnd, h⟩ := h.of_bind
    cases h
    rw [U256.sub_eq_ok, add_comm] at hpnd
    exact ⟨_, pend, hpnd.trans hnew, BitVec.le_refl _, rfl⟩
  · cases h
    exact ⟨newEffective, 0, hnew, BitVec.not_lt.mp hcap, rfl⟩

theorem switchToCompoundingValidator_eq_ok
    (h : self.switchToCompoundingValidator = .ok (.ok self')) :
    ∃ amt,
      (self.setCredentialByte WithdrawalCredentialType.compounding.toByte).consolidateBalance =
        .ok (amt, self') := by
  rw [switchToCompoundingValidator] at h
  split_ifs at h
  · cases h
  · obtain ⟨⟨amt, self''⟩, hcns, h⟩ := h.of_bind
    cases h
    exact ⟨amt, hcns⟩

theorem pubkey_addBalance (h : self.addBalance amt = .ok self') : self'.pubkey = self.pubkey := by
  obtain ⟨-, pend, -, rfl⟩ | ⟨-, effective, -, rfl⟩ := addBalance_cases h
  · rfl
  · rfl

theorem pubkey_switch (h : self.switchToCompoundingValidator = .ok (.ok self')) :
    self'.pubkey = self.pubkey := by
  obtain ⟨amt, hcns⟩ := switchToCompoundingValidator_eq_ok h
  obtain ⟨effective, pend, -, -, rfl⟩ := consolidateBalance_cases hcns
  rfl

/-- What a validator holds, effective and still to be deposited. -/
def total (self : ValidatorEip7251) : Nat :=
  self.effectiveBalance.toNat + self.pendingBalanceToDeposit.toNat

inductive BalanceCall where
  | addBalance (amount : U256)
  | consolidateBalance
  | switchToCompoundingValidator

namespace BalanceCall

def perform : BalanceCall → ValidatorEip7251 → Checked ValidatorEip7251
  | .addBalance amount, self => self.addBalance amount
  | .consolidateBalance, self => do
    let (_, self) ← self.consolidateBalance
    return self
  | .switchToCompoundingValidator, self => do
    match ← self.switchToCompoundingValidator with
    | .ok self => return self
    | .error _ => return self

def deposit : BalanceCall → Nat
  | .addBalance amount => amount.toNat
  | _ => 0

end BalanceCall

def Overwrites (self : ValidatorEip7251) : BalanceCall → Prop
  | .addBalance amount =>
    self.getMaxEffectiveBalance.toNat < self.effectiveBalance.toNat + amount.toNat ∧
      self.pendingBalanceToDeposit ≠ 0
  | _ => False

def run (self : ValidatorEip7251) : List BalanceCall → Checked ValidatorEip7251
  | [] => .ok self
  | call :: calls => do
    let self ← call.perform self
    self.run calls

/-- No call of the run replaces a pending balance that is not zero. -/
def NeverOverwrites (self : ValidatorEip7251) : List BalanceCall → Prop
  | [] => True
  | call :: calls =>
    ¬self.Overwrites call ∧ ∀ self', call.perform self = .ok self' → self'.NeverOverwrites calls

theorem total_consolidateBalance (h : self.consolidateBalance = .ok (amt, self')) :
    self'.total = self.total := by
  obtain ⟨effective, pend, htot, -, rfl⟩ := consolidateBalance_cases h
  exact htot

theorem total_perform (h : call.perform self = .ok self') :
    self'.total ≤ self.total + call.deposit ∧
      (self'.total = self.total + call.deposit ↔ ¬self.Overwrites call) := by
  cases call with
  | addBalance amt =>
    rw [Overwrites, total, total, BalanceCall.deposit, Ne, ← BitVec.toNat_inj]
    obtain ⟨hcap, pend, hpnd, rfl⟩ | ⟨hcap, effective, heff, rfl⟩ := addBalance_cases h
    · simp only [BitVec.ofNat_eq_ofNat, BitVec.toNat_ofNat]
      omega
    · dsimp only
      omega
  | consolidateBalance =>
    obtain ⟨⟨amt, self''⟩, hcns, h⟩ := h.of_bind
    cases h
    have htot := total_consolidateBalance hcns
    exact ⟨htot.le, iff_of_true htot not_false⟩
  | switchToCompoundingValidator =>
    obtain ⟨switched, hswi, h⟩ := h.of_bind
    cases switched with
    | ok self'' =>
      cases h
      obtain ⟨amt, hcns⟩ := switchToCompoundingValidator_eq_ok hswi
      have htot := total_consolidateBalance hcns
      exact ⟨htot.le, iff_of_true htot not_false⟩
    | error e =>
      cases h
      exact ⟨le_rfl, iff_of_true rfl not_false⟩

theorem total_run_le (h : self.run calls = .ok self') :
    self'.total ≤ self.total + (calls.map BalanceCall.deposit).sum := by
  induction calls generalizing self with
  | nil =>
    cases h
    exact le_rfl
  | cons call calls ih =>
    obtain ⟨self'', hcall, h⟩ := h.of_bind
    have hcall' := (total_perform hcall).1
    have hrest := ih h
    rw [map_cons, sum_cons]
    omega

/-- The deposits of a run add up exactly if no call overwrites what is pending. -/
theorem deposits_conserved {calls : List BalanceCall} (h : self.run calls = .ok self') :
    self'.total = self.total + (calls.map BalanceCall.deposit).sum ↔
      self.NeverOverwrites calls := by
  induction calls generalizing self with
  | nil =>
    cases h
    exact iff_of_true rfl trivial
  | cons call calls ih =>
    obtain ⟨self'', hcall, h⟩ := h.of_bind
    obtain ⟨hle, hiff⟩ := total_perform hcall
    have hrest := total_run_le h
    have hthen : self''.NeverOverwrites calls ↔
        ∀ self', call.perform self = .ok self' → self'.NeverOverwrites calls := by
      rw [hcall]
      exact ⟨fun hnev _ heq => Except.ok.inj heq ▸ hnev, fun hnev => hnev self'' rfl⟩
    rw [NeverOverwrites, ← hiff, ← hthen, ← ih h, map_cons, sum_cons]
    -- each side is at most the other, so that the sum is exact only if both parts are
    omega

end ValidatorEip7251

namespace SampleConstants

scoped instance : BalanceConstants where
  minActivationBalance := 32
  maxEffectiveBalanceEip7251 := 2048
  oldMaxEffectiveBalance := 32

def sampleValidator (pubkey : UInt8) (type : WithdrawalCredentialType) (effectiveBalance : U256) :
    ValidatorEip7251 where
  pubkey := ⟨List.replicate 48 pubkey, rfl⟩
  withdrawalCredentials := ⟨List.replicate 32 type.toByte, rfl⟩
  effectiveBalance
  slashed := false
  activationEligibilityEpoch := ValidatorEip7251.maxEpoch
  activationEpoch := ValidatorEip7251.maxEpoch
  exitEpoch := ValidatorEip7251.maxEpoch
  withdrawableEpoch := ValidatorEip7251.maxEpoch
  pendingBalanceToDeposit := 0

end SampleConstants

namespace ValidatorEip7251
open SampleConstants

theorem deposits_conserved_sample :
    ((sampleValidator 1 .eth1 32).run
      [.addBalance 5, .switchToCompoundingValidator, .addBalance 2100]).map (·.total) = .ok 2137 ∧
    (sampleValidator 1 .eth1 32).NeverOverwrites
      [.addBalance 5, .switchToCompoundingValidator, .addBalance 2100] := by
  have hrun : (sampleValidator 1 .eth1 32).run
      [.addBalance 5, .switchToCompoundingValidator, .addBalance 2100] = .ok
        { sampleValidator 1 .eth1 2048 with
          withdrawalCredentials := .cons 2 (sampleValidator 1 .eth1 32).withdrawalCredentials.tail
          pendingBalanceToDeposit := 89 } := by decide +kernel
  exact ⟨by decide +kernel, (deposits_conserved hrun).mp (by decide +kernel)⟩

/-- The second deposit above the cap replaces what was pending from the first. -/
theorem deposit_lost :
    ((sampleValidator 1 .eth1 32).run [.addBalance 5, .addBalance 3]).map (·.total) = .ok 35 ∧
    (sampleValidator 1 .eth1 32).total +
      ([.addBalance 5, .addBalance 3].map BalanceCall.deposit).sum = 40 := by
  decide +kernel

end ValidatorEip7251

namespace ValidatorRegistry
variable {reg reg' : ValidatorRegistry} {index : Nat} {delta : U256}

def totalBalance (registry : ValidatorRegistry) : Nat := (registry.balances.map (·.toNat)).sum

theorem sum_set {balances : List U256} (h : balances[index]? = some bal)
    (bal' : U256) : ((balances.set index bal').map (·.toNat)).sum + bal.toNat =
      (balances.map (·.toNat)).sum + bal'.toNat := by
  induction balances generalizing index with
  | nil => cases h
  | cons first rest ih =>
    cases index with
    | zero =>
      cases h
      rw [set_cons_zero, map_cons, map_cons, sum_cons, sum_cons]
      omega
    | succ index =>
      rw [set_cons_succ, map_cons, map_cons, sum_cons, sum_cons]
      have hrest := ih h
      omega

def pubkeys (registry : ValidatorRegistry) : List Pubkey := registry.validators.map (·.pubkey)

theorem position_congr (h : reg'.pubkeys = reg.pubkeys) :
    reg'.position pubkey = reg.position pubkey := by
  have hpos (reg : ValidatorRegistry) :
      reg.position pubkey = reg.pubkeys.findIdx? (· = pubkey) := by
    rw [pubkeys, findIdx?_map]
    rfl
  rw [hpos, hpos, h]

theorem storeValidator_eq_ok (h : storeValidator index v' reg = .ok () reg')
    (hv : reg.validators[index]? = some v) (hpk : v'.pubkey = v.pubkey) :
    reg'.balances = reg.balances ∧ reg'.pubkeys = reg.pubkeys := by
  obtain rfl := update_eq_ok.mp h
  obtain ⟨hlt, rfl⟩ := List.getElem?_eq_some_iff.mp hv
  have hlt' : index < reg.pubkeys.length := by rwa [pubkeys, List.length_map]
  refine ⟨rfl, ?_⟩
  rw [pubkeys, List.map_set, hpk, ← List.getElem_map ValidatorEip7251.pubkey (h := hlt')]
  exact List.set_getElem_self hlt'

section
variable [BalanceConstants]

theorem increaseBalance_eq_ok (h : increaseBalance index delta reg = .ok () reg') :
    ∃ bal bal' : U256, reg.balances[index]? = some bal ∧
      bal'.toNat = bal.toNat + delta.toNat ∧
      reg'.balances = reg.balances.set index bal' ∧
      reg'.pubkeys = reg.pubkeys := by
  rw [increaseBalance, bind_read] at h
  cases hbal : reg.balances[index]? with
  | none =>
    rw [hbal] at h
    exact absurd h fail_ne_ok
  | some bal =>
    rw [hbal] at h
    obtain ⟨bal', s₁, hlift, hrest⟩ := bind_eq_ok.mp h
    obtain ⟨hadd, rfl⟩ := checked_eq_ok.mp hlift
    obtain ⟨_, s₂, hsto, hrest⟩ := bind_eq_ok.mp hrest
    obtain rfl := update_eq_ok.mp hsto
    refine ⟨bal, bal', rfl, U256.add_eq_ok.mp hadd, ?_⟩
    rw [bind_read] at hrest
    cases hv : s₁.validators[index]? with
    | none =>
      rw [hv] at hrest
      cases hrest
      exact ⟨rfl, rfl⟩
    | some v =>
      rw [hv] at hrest
      obtain ⟨v', s₃, hlift', hput⟩ := bind_eq_ok.mp hrest
      obtain ⟨hadde, rfl⟩ := checked_eq_ok.mp hlift'
      exact storeValidator_eq_ok hput hv (ValidatorEip7251.pubkey_addBalance hadde)

end

end ValidatorRegistry

namespace ConsolidationRequest
open ValidatorRegistry
variable {self : ConsolidationRequest} {reg reg' : ValidatorRegistry}

theorem okOr_eq_ok {option : Option α} {a : α} (h : okOr option error reg = .ok a reg') :
    option = some a ∧ reg' = reg := by
  cases option with
  | none => cases h
  | some b =>
    cases h
    exact ⟨rfl, rfl⟩

theorem exitSource_eq_ok (h : exitSource sourceIndex reg = .ok () reg') :
    reg'.balances = reg.balances ∧ reg'.pubkeys = reg.pubkeys := by
  rw [exitSource, bind_read] at h
  cases hsrc : reg.validators[sourceIndex]? with
  | none =>
    rw [hsrc] at h
    cases h
  | some src =>
    rw [hsrc] at h
    refine storeValidator_eq_ok h hsrc ?_
    rw [ValidatorEip7251.initiateExit]
    split_ifs <;> rfl

/-- What the request moves: the balance of its source. -/
def sourceBalance (self : ConsolidationRequest) (registry : ValidatorRegistry) : Option U256 :=
  (registry.position self.sourcePubkey).bind registry.getBalance

section
variable [BalanceConstants]

theorem switchTarget_eq_ok (h : switchTarget targetIndex reg = .ok () reg') :
    reg'.balances = reg.balances ∧ reg'.pubkeys = reg.pubkeys := by
  rw [switchTarget, bind_read] at h
  cases htgt : reg.validators[targetIndex]? with
  | none =>
    rw [htgt] at h
    cases h
    exact ⟨rfl, rfl⟩
  | some tgt =>
    rw [htgt] at h
    dsimp only at h
    split_ifs at h
    · obtain ⟨switched, s₁, hlift, h₁⟩ := bind_eq_ok.mp h
      obtain ⟨hswi, rfl⟩ := checked_eq_ok.mp hlift
      obtain ⟨tgt', s₂, hres, h₂⟩ := bind_eq_ok.mp h₁
      obtain ⟨rfl, rfl⟩ := result_eq_ok.mp hres
      exact storeValidator_eq_ok h₂ htgt (ValidatorEip7251.pubkey_switch hswi)
    · cases h
      exact ⟨rfl, rfl⟩

theorem process_eq_ok (h : self.process reg = .ok () reg') :
    ∃ (index : Nat) (src bal bal' : U256), self.sourceBalance reg = some src ∧
      reg.balances[index]? = some bal ∧ bal'.toNat = bal.toNat + src.toNat ∧
      reg'.balances = reg.balances.set index bal' ∧
      reg'.pubkeys = reg.pubkeys := by
  rw [process, bind_read] at h
  obtain ⟨sourceIndex, s₁, hsrc, h₁⟩ := bind_eq_ok.mp h
  obtain ⟨hsour, rfl⟩ := okOr_eq_ok hsrc
  rw [bind_read] at h₁
  obtain ⟨targetIndex, s₂, htgt, h₂⟩ := bind_eq_ok.mp h₁
  obtain ⟨-, rfl⟩ := okOr_eq_ok htgt
  rw [bind_read] at h₂
  obtain ⟨src, s₃, hbal, h₃⟩ := bind_eq_ok.mp h₂
  obtain ⟨hsou, rfl⟩ := okOr_eq_ok hbal
  obtain ⟨_, s₄, hexit, h₄⟩ := bind_eq_ok.mp h₃
  obtain ⟨hbals, hpub⟩ := exitSource_eq_ok hexit
  obtain ⟨_, s₅, hinc, h₅⟩ := bind_eq_ok.mp h₄
  obtain ⟨bal, bal', hget, hadd, hbals', hpub'⟩ := increaseBalance_eq_ok hinc
  rw [hbals] at hget hbals'
  rw [hpub] at hpub'
  refine ⟨targetIndex, src, bal, bal', ?_, hget, hadd, ?_⟩
  · rw [sourceBalance, hsour]
    exact hsou
  · rw [← hbals', ← hpub']
    exact switchTarget_eq_ok h₅

def processTimes (self : ConsolidationRequest) : Nat → Method ValidatorRegistry Eip7251Error Unit
  | 0 => pure ()
  | times + 1 => do
    self.process
    self.processTimes times

theorem totalBalance_process (h : self.process reg = .ok () reg') :
    ∃ source, self.sourceBalance reg = some source ∧
      reg'.totalBalance = reg.totalBalance + source.toNat := by
  obtain ⟨index, source, balance, balance', hsrc, hget, hadd, hbals, -⟩ := process_eq_ok h
  have hsum := sum_set hget balance'
  refine ⟨source, hsrc, ?_⟩
  rw [totalBalance, totalBalance, hbals]
  omega

theorem sourceBalance_process (h : self.process reg = .ok () reg')
    (hzero : self.sourceBalance reg = some 0) : self.sourceBalance reg' = some 0 := by
  obtain ⟨index, src, bal, bal', hsrc, hget, hadd, hbals, hpub⟩ := process_eq_ok h
  obtain rfl := Option.some.inj (hzero.symm.trans hsrc)
  obtain rfl : bal' = bal := BitVec.eq_of_toNat_eq hadd
  have hkept : reg'.balances = reg.balances := by
    obtain ⟨hlt, rfl⟩ := List.getElem?_eq_some_iff.mp hget
    rw [hbals, List.set_getElem_self]
  have hsame : self.sourceBalance reg' = self.sourceBalance reg := by
    rw [sourceBalance, sourceBalance, position_congr hpub]
    unfold getBalance
    rw [hkept]
  exact hsame.trans hzero

theorem totalBalance_processTimes_le (h : self.processTimes times reg = .ok () reg') :
    reg.totalBalance ≤ reg'.totalBalance := by
  induction times generalizing reg with
  | zero =>
    cases h
    exact le_rfl
  | succ times ih =>
    obtain ⟨_, s₁, hpro, hrest⟩ := bind_eq_ok.mp h
    obtain ⟨src, -, htot⟩ := totalBalance_process hpro
    have hle := ih hrest
    omega

theorem totalBalance_processTimes_of_zero (h : self.processTimes times reg = .ok () reg')
    (hzero : self.sourceBalance reg = some 0) :
    reg'.totalBalance = reg.totalBalance := by
  induction times generalizing reg with
  | zero =>
    cases h
    rfl
  | succ times ih =>
    obtain ⟨_, s₁, hpro, hrest⟩ := bind_eq_ok.mp h
    obtain ⟨src, hsrc, htot⟩ := totalBalance_process hpro
    obtain rfl := Option.some.inj (hzero.symm.trans hsrc)
    rw [ih hrest (sourceBalance_process hpro hzero), htot]
    rfl

/-- A request that is processed once or more keeps the total exactly if the source has no balance.
-/
theorem consolidation_conserves {times : Nat}
    (h : self.processTimes (times + 1) reg = .ok () reg') :
    reg'.totalBalance = reg.totalBalance ↔ self.sourceBalance reg = some 0 := by
  refine ⟨?_, totalBalance_processTimes_of_zero h⟩
  intro hkept
  obtain ⟨_, s₁, hpro, hrest⟩ := bind_eq_ok.mp h
  obtain ⟨src, hsrc, htot⟩ := totalBalance_process hpro
  have hle := totalBalance_processTimes_le hrest
  have hzero : src.toNat = 0 := by omega
  exact hsrc.trans (congrArg some (BitVec.eq_of_toNat_eq hzero))

end

section
open SampleConstants

def sampleRequest (source target : UInt8) : ConsolidationRequest where
  sourceAddress := Address.zero
  sourcePubkey := ⟨List.replicate 48 source, rfl⟩
  targetPubkey := ⟨List.replicate 48 target, rfl⟩

theorem consolidation_conserves_sample :
    (sampleRequest 1 2).sourceBalance
      ⟨[sampleValidator 1 .eth1 32, sampleValidator 2 .compounding 32], [0, 32]⟩ = some 0 := by
  have hpro : (sampleRequest 1 2).processTimes 2
      ⟨[sampleValidator 1 .eth1 32, sampleValidator 2 .compounding 32], [0, 32]⟩ = .ok ()
        ⟨[{ sampleValidator 1 .eth1 32 with exitEpoch := 0 }, sampleValidator 2 .compounding 32],
          [0, 32]⟩ := by decide +kernel
  exact (consolidation_conserves hpro).mp (by decide +kernel)

/-- The balance of the source is there twice afterwards, also if the source is the target. -/
theorem consolidation_creates_balance :
    (sampleRequest 1 2).process
      ⟨[sampleValidator 1 .eth1 32, sampleValidator 2 .compounding 32], [32, 32]⟩ = .ok ()
        ⟨[{ sampleValidator 1 .eth1 32 with exitEpoch := 0 }, sampleValidator 2 .compounding 64],
          [32, 64]⟩ ∧
    (sampleRequest 1 1).process ⟨[sampleValidator 1 .compounding 32], [32]⟩ = .ok ()
      ⟨[{ sampleValidator 1 .compounding 64 with exitEpoch := 0 }], [64]⟩ := by
  decide +kernel

end

end ConsolidationRequest

namespace ValidatorEip7251

def Capped [BalanceConstants] (self : ValidatorEip7251) : Prop :=
  self.effectiveBalance ≤ self.getMaxEffectiveBalance

section
variable [BalanceConstants] {self : ValidatorEip7251}

theorem capped_addBalance (h : self.addBalance amt = .ok self') : self'.Capped := by
  obtain ⟨-, pend, -, rfl⟩ | ⟨hcap, effective, heff, rfl⟩ := addBalance_cases h
  · exact BitVec.le_refl _
  · exact BitVec.le_def.mpr (heff ▸ hcap)

theorem capped_consolidateBalance (h : self.consolidateBalance = .ok (amt, self')) :
    self'.Capped := by
  obtain ⟨effective, pend, -, hcap, rfl⟩ := consolidateBalance_cases h
  exact hcap

theorem capped_initiateExit (h : self.Capped) : (self.initiateExit epoch).Capped := by
  rw [initiateExit]
  split_ifs
  · exact h
  · exact h

theorem getMaxEffectiveBalance_eq (h : self.getWithdrawalCredentialType = some type) :
    self.getMaxEffectiveBalance = maxEffective type := by
  rw [getMaxEffectiveBalance, isCompounding, h]
  cases type with
  | bls => rfl
  | eth1 => rfl
  | compounding => rfl

theorem capped_new {pubkey : Pubkey} {withdrawalCredentials : H256}
    (h : new pubkey withdrawalCredentials initialBalance = .ok self) : self.Capped := by
  rw [new] at h
  split_ifs at h
  split at h
  · cases h
  · next withdrawalType htype =>
    have htype' : self.getWithdrawalCredentialType = some withdrawalType := by
      cases h
      exact htype
    rw [Capped, getMaxEffectiveBalance_eq htype']
    cases h
    split_ifs with hover
    · exact BitVec.le_refl _
    · exact BitVec.not_lt.mp hover

end

end ValidatorEip7251

namespace ValidatorRegistry
variable [BalanceConstants]

def Capped (registry : ValidatorRegistry) : Prop :=
  ∀ validator ∈ registry.validators, validator.Capped

theorem keeps_storeValidator (h : v.Capped) : Keeps Capped (storeValidator index v) := by
  refine .update fun reg hcap other hoth => ?_
  obtain hmem | rfl := mem_or_eq_of_mem_set hoth
  · exact hcap other hmem
  · exact h

theorem keeps_storeBalance : Keeps Capped (storeBalance index bal) := .update fun _ hcap => hcap

theorem keeps_setBalance : Keeps Capped (setBalance index bal) := by
  refine .bind_read fun reg _ => ?_
  split
  · exact .fail _
  · exact keeps_storeBalance

theorem keeps_addValidator (h : v.Capped) : Keeps Capped (addValidator v bal) := by
  refine .bind_read fun _ _ => .bind (.update fun reg hcap => ?_) fun _ => .pure _
  exact forall_mem_append.mpr ⟨hcap, forall_mem_singleton.mpr h⟩

theorem keeps_increaseBalance : Keeps Capped (increaseBalance index delta) := by
  refine .bind_read fun _ _ => ?_
  split
  · exact .fail _
  · refine .bind_checked fun bal _ => ?_
    refine .bind keeps_storeBalance fun _ => .bind_read fun _ _ => ?_
    split
    · exact .pure _
    · exact .bind_checked fun v hadd =>
        keeps_storeValidator (ValidatorEip7251.capped_addBalance hadd)

theorem keeps_decreaseBalance : Keeps Capped (decreaseBalance index delta) := by
  refine .bind_read fun _ _ => ?_
  split
  · exact .fail _
  · refine .bind_checked fun bal _ => ?_
    refine .bind keeps_storeBalance fun _ => .bind_read fun reg hcap => ?_
    split
    · exact .pure _
    · next v hv =>
      split_ifs with hless
      · have hv' := hcap v (mem_of_getElem? hv)
        exact keeps_storeValidator (BitVec.le_trans (BitVec.le_of_lt hless) hv')
      · exact .pure _

theorem capped_processPendingFrom {vals vals' : List ValidatorEip7251} (hcap : ∀ v ∈ vals, v.Capped)
    (h : processPendingFrom maxDeposits index count vals = .ok (processed, vals')) :
    ∀ v ∈ vals', v.Capped := by
  induction vals generalizing index count processed vals' with
  | nil =>
    cases h
    exact hcap
  | cons v rest ih =>
    obtain ⟨hv, hrest⟩ := forall_mem_cons.mp hcap
    rw [processPendingFrom] at h
    split_ifs at h
    · cases h
      exact hcap
    · obtain ⟨⟨amt, v'⟩, hcns, h₁⟩ := h.of_bind
      have hv' := ValidatorEip7251.capped_consolidateBalance hcns
      dsimp only at h₁
      split_ifs at h₁
      · obtain ⟨⟨processed', rest'⟩, hfrom, h₂⟩ := h₁.of_bind
        cases h₂
        exact forall_mem_cons.mpr ⟨hv', ih hrest hfrom⟩
      · obtain ⟨⟨processed', rest'⟩, hfrom, h₂⟩ := h₁.of_bind
        cases h₂
        exact forall_mem_cons.mpr ⟨hv', ih hrest hfrom⟩
    · obtain ⟨⟨processed', rest'⟩, hfrom, h₁⟩ := h.of_bind
      cases h₁
      exact forall_mem_cons.mpr ⟨hv, ih hrest hfrom⟩

theorem keeps_processPendingBalanceDeposits :
    Keeps Capped (processPendingBalanceDeposits maxDeposits) := by
  refine .bind_read fun reg hcap => .bind_checked fun (_, vals) hfrom => ?_
  exact .bind (.update fun _ _ => capped_processPendingFrom hcap hfrom) fun _ => .pure _

end ValidatorRegistry

namespace ConsolidationRequest
open ValidatorRegistry
variable [BalanceConstants]

theorem keeps_okOr (option : Option α) : Keeps Capped (okOr option error) := by
  cases option with
  | none => exact .fail error
  | some a => exact .pure a

theorem keeps_exitSource : Keeps Capped (exitSource sourceIndex) := by
  refine .bind_read fun reg hcap => ?_
  split
  · exact fun _ _ => trivial
  · next src hsrc =>
    have hcap' := hcap src (mem_of_getElem? hsrc)
    exact keeps_storeValidator (ValidatorEip7251.capped_initiateExit hcap')

theorem keeps_switchTarget : Keeps Capped (switchTarget targetIndex) := by
  refine .bind_read fun reg _ => ?_
  split
  · exact .pure _
  · split_ifs
    · refine .bind_checked fun switched hswi => .bind_result fun tgt htgt => ?_
      rw [htgt] at hswi
      obtain ⟨amt, hcns⟩ := ValidatorEip7251.switchToCompoundingValidator_eq_ok hswi
      exact keeps_storeValidator (ValidatorEip7251.capped_consolidateBalance hcns)
    · exact .pure _

theorem keeps_process (self : ConsolidationRequest) : Keeps Capped self.process := by
  refine .bind_read fun _ _ => .bind (keeps_okOr _) fun sourceIndex => ?_
  refine .bind_read fun _ _ => .bind (keeps_okOr _) fun targetIndex => ?_
  refine .bind_read fun _ _ => .bind (keeps_okOr _) fun sourceBalance => ?_
  refine .bind keeps_exitSource fun _ => ?_
  refine .bind keeps_increaseBalance fun _ => ?_
  exact keeps_switchTarget

end ConsolidationRequest

namespace ValidatorRegistry

inductive RegistryCall where
  | addValidator (pubkey : Pubkey) (withdrawalCredentials : H256) (initialBalance balance : U256)
  | setBalance (index : Nat) (balance : U256)
  | increaseBalance (index : Nat) (delta : U256)
  | decreaseBalance (index : Nat) (delta : U256)
  | processPendingBalanceDeposits (maxDeposits : Nat)
  | process (request : ConsolidationRequest)

section
variable [BalanceConstants]

def RegistryCall.perform : RegistryCall → Method ValidatorRegistry Eip7251Error Unit
  | .addValidator pubkey withdrawalCredentials initialBalance balance => do
    let validator ← result (ValidatorEip7251.new pubkey withdrawalCredentials initialBalance)
    let _ ← ValidatorRegistry.addValidator validator balance
  | .setBalance index balance => ValidatorRegistry.setBalance index balance
  | .increaseBalance index delta => ValidatorRegistry.increaseBalance index delta
  | .decreaseBalance index delta => ValidatorRegistry.decreaseBalance index delta
  | .processPendingBalanceDeposits maxDeposits => do
    let _ ← ValidatorRegistry.processPendingBalanceDeposits maxDeposits
  | .process request => request.process

theorem keeps_perform (call : RegistryCall) : Keeps Capped call.perform := by
  cases call with
  | addValidator pubkey withdrawalCredentials initialBalance bal =>
    refine .bind_result fun v hnew => ?_
    exact .bind (keeps_addValidator (ValidatorEip7251.capped_new hnew)) fun _ => .pure _
  | setBalance index bal => exact keeps_setBalance
  | increaseBalance index delta => exact keeps_increaseBalance
  | decreaseBalance index delta => exact keeps_decreaseBalance
  | processPendingBalanceDeposits maxDeposits =>
    exact .bind keeps_processPendingBalanceDeposits fun _ => .pure _
  | process req => exact req.keeps_process

/-- A call that was answered, with `Ok` or with an error. -/
def RegistryStep (_ : List RegistryCall) (registry : ValidatorRegistry) (call : RegistryCall)
    (registry' : ValidatorRegistry) : Prop :=
  call.perform registry = .ok () registry' ∨ ∃ e, call.perform registry = .err e registry'

/-- After every run of calls on a new registry, failed ones included, no validator has a larger
effective balance than its credentials allow. -/
theorem effectiveBalance_capped {calls : List RegistryCall} {reg : ValidatorRegistry}
    (h : History.Run RegistryStep new calls reg) :
    ∀ v ∈ reg.validators, v.effectiveBalance ≤ v.getMaxEffectiveBalance := by
  refine h.induct (fun _ reg => reg.Capped) (forall_mem_nil _) ?_
  rintro past reg call reg' - hcap (hok | ⟨e, herr⟩)
  · exact (keeps_perform call reg hcap).of_ok hok
  · exact (keeps_perform call reg hcap).of_err herr

def performCall (_ : List RegistryCall) (registry : ValidatorRegistry) (call : RegistryCall) :
    Option ValidatorRegistry :=
  match call.perform registry with
  | .ok _ registry' => some registry'
  | .err _ registry' => some registry'
  | .panic _ => none

theorem registryStep_of_performCall (past : List RegistryCall) (reg : ValidatorRegistry)
    (call : RegistryCall) (reg' : ValidatorRegistry)
    (h : performCall past reg call = some reg') :
    RegistryStep past reg call reg' := by
  rw [performCall] at h
  split at h
  · next heq => exact .inl (heq.trans (congrArg _ (Option.some.inj h)))
  · next e _ heq => exact .inr ⟨e, heq.trans (congrArg _ (Option.some.inj h))⟩
  · cases h

end

section
open SampleConstants

/-- The second request fails at the switch, after the balance of its target has grown. -/
theorem effectiveBalance_capped_sample : ∃ reg, History.Run RegistryStep new
      [.addValidator ⟨replicate 48 1, rfl⟩ ⟨replicate 32 1, rfl⟩ 40 40,
        .addValidator ⟨replicate 48 2, rfl⟩ ⟨replicate 32 0, rfl⟩ 32 32,
        .decreaseBalance 1 2, .increaseBalance 0 5,
        .process (ConsolidationRequest.sampleRequest 2 1), .processPendingBalanceDeposits 1,
        .process (ConsolidationRequest.sampleRequest 1 2)] reg ∧
      reg.validators.map (·.effectiveBalance) = [62, 32] ∧
      ∀ v ∈ reg.validators,
        v.effectiveBalance ≤ v.getMaxEffectiveBalance := by
  exact History.exists_of_replay registryStep_of_performCall (by decide +kernel)
    fun reg hrun heff => ⟨hrun, heff, effectiveBalance_capped hrun⟩

end

end ValidatorRegistry

end EthereumRust.Consensus
