import EthereumRust.Types
import EthereumRust.Lib.History
import EthereumRust.Lib.MapTotal

/-!
# The validator set (`crates/ssf/src/validator.rs`)

The set keeps the validators in a map, the indices of the active ones in a list, and their stakes
added up in `total_stake`. The list follows every change of a status, but `total_stake` does not,
and a penalty is taken off it whether or not the stake was counted.
-/

namespace EthereumRust.Ssf

open Rust Rust.Method List Finmap

inductive SSFError where
  | finalityFailed (message : String)
  | aggregationError (message : String)
  | validatorError (message : String)
  | committeeError (message : String)
  | signatureError (message : String)
  deriving DecidableEq, Repr

inductive ValidatorStatus where
  | active
  | pending
  | exiting (exitEpoch : UInt64)
  | slashed (slashedAt : UInt64)
  | withdrawn
  deriving DecidableEq, Repr

def ValidatorStatus.exitsBy (newEpoch : UInt64) : ValidatorStatus → Bool
  | .exiting exitEpoch => exitEpoch ≤ newEpoch
  | _ => false

structure SSFValidator where
  index : UInt64
  stake : U256
  status : ValidatorStatus
  deriving DecidableEq

structure ValidatorSet where
  validators : HashMap UInt64 SSFValidator
  activeValidators : List UInt64
  totalStake : U256
  epoch : UInt64

namespace ValidatorSet

def new : ValidatorSet where
  validators := ∅
  activeValidators := []
  totalStake := 0
  epoch := 0

def isActive (self : ValidatorSet) (index : UInt64) : Bool :=
  ((self.validators.lookup index).map (·.status == .active)).getD false

def addValidator (validator : SSFValidator) : Method ValidatorSet SSFError Unit := do
  let index := validator.index
  let stake := validator.stake
  update fun self => { self with validators := self.validators.insert index validator }
  if ← read (·.isActive index) then
    if !(← read (·.activeValidators.contains index)) then
      update fun self => { self with activeValidators := self.activeValidators ++ [index] }
      let total ← U256.add (← read (·.totalStake)) stake
      update fun self => { self with totalStake := total }

def removeValidator (index : UInt64) : Method ValidatorSet SSFError Unit := do
  match ← read (·.validators.lookup index) with
  | none => fail (.validatorError "Validator not found")
  | some validator =>
    update fun self => { self with validators := self.validators.erase index }
    if ← read (·.activeValidators.contains index) then
      update fun self => { self with activeValidators := self.activeValidators.erase index }
      let total ← U256.sub (← read (·.totalStake)) validator.stake
      update fun self => { self with totalStake := total }

/-- The part of `update_validator_status` that follows a change of the status. Only the list is
updated. -/
def updateActiveList (index : UInt64) (wasActive isActiveNow : Bool) :
    Method ValidatorSet SSFError Unit := do
  if wasActive != isActiveNow then
    if isActiveNow then
      if !(← read (·.activeValidators.contains index)) then
        update fun self => { self with activeValidators := self.activeValidators ++ [index] }
    else
      update fun self => { self with activeValidators := self.activeValidators.erase index }

def updateValidatorStatus (index : UInt64) (status : ValidatorStatus) :
    Method ValidatorSet SSFError Unit := do
  match ← read (·.validators.lookup index) with
  | none => fail (.validatorError "Validator not found")
  | some validator =>
    let wasActive := validator.status == .active
    update fun self =>
      { self with validators := self.validators.insert index { validator with status } }
    let isActiveNow := status == .active
    updateActiveList index wasActive isActiveNow

def slashValidator (index epoch : UInt64) : Method ValidatorSet SSFError Unit := do
  updateValidatorStatus index (.slashed epoch)
  match ← read (·.validators.lookup index) with
  | none => pure ()
  | some validator =>
    let penalty ← validator.stake.div 32
    let stake ← validator.stake.sub penalty
    update fun self =>
      { self with validators := self.validators.insert index { validator with stake } }
    let total ← U256.sub (← read (·.totalStake)) penalty
    update fun self => { self with totalStake := total }

def initiateExit (index exitEpoch : UInt64) : Method ValidatorSet SSFError Unit :=
  updateValidatorStatus index (.exiting exitEpoch)

/-- The map is read in an order of its own, `order`. -/
def processEpochTransition (newEpoch : UInt64) (order : List UInt64) :
    Method ValidatorSet SSFError Unit := do
  update fun self => { self with epoch := newEpoch }
  let validators ← read (·.validators)
  let toExit := order.filter fun index =>
    ((validators.lookup index).map (·.status.exitsBy newEpoch)).getD false
  toExit.foldlM (fun _ index => updateValidatorStatus index .withdrawn) ()

def activeStake (validator : SSFValidator) : Nat :=
  if validator.status = .active then validator.stake.toNat else 0

structure Listed (set : ValidatorSet) : Prop where
  nodup : set.activeValidators.Nodup
  mem_iff : ∀ index, index ∈ set.activeValidators ↔ set.isActive index = true

structure Sound (set : ValidatorSet) : Prop extends Listed set where
  total : set.totalStake.toNat = MapTotal.total activeStake set.validators

theorem sound_new : Sound new where
  nodup := nodup_nil
  mem_iff _ := by simp [new, isActive]
  total := rfl

def listActive (active : List UInt64) (index : UInt64) (isActiveNow : Bool) : List UInt64 :=
  if isActiveNow then if active.contains index then active else active ++ [index]
  else active.erase index

def withStatus (self : ValidatorSet) (index : UInt64) (validator : SSFValidator)
    (status : ValidatorStatus) : ValidatorSet :=
  { self with
    validators := self.validators.insert index { validator with status }
    activeValidators := listActive self.activeValidators index (status == .active) }

section
variable {s : ValidatorSet} {index : UInt64} {v : SSFValidator}

theorem isActive_of_lookup (h : s.validators.lookup index = some v) :
    s.isActive index = (v.status == .active) := by
  rw [isActive, h]
  rfl

theorem nodup_listActive (h : active.Nodup) : (listActive active index isActiveNow).Nodup := by
  unfold listActive
  split_ifs with hnow hmem
  · exact h
  · rw [contains_iff_mem] at hmem
    exact nodup_append.mpr ⟨h, nodup_singleton _, by grind⟩
  · exact h.erase _

theorem mem_listActive (h : active.Nodup) : other ∈ listActive active index isActiveNow ↔
      if other = index then isActiveNow = true else other ∈ active := by
  unfold listActive
  split_ifs with hnow hmem heq heq heq
  · simpa [heq, hnow] using hmem
  · rfl
  · simp [heq, hnow]
  · simp [heq]
  · simp [heq, hnow, h.mem_erase_iff]
  · rw [h.mem_erase_iff, and_iff_right heq]

theorem Listed.of_total (h : Listed s) (totalStake : U256) :
    Listed { s with totalStake } := ⟨h.nodup, h.mem_iff⟩

theorem Listed.listActive_eq (h : Listed s) (index : UInt64) :
    listActive s.activeValidators index (s.isActive index) = s.activeValidators := by
  have hmem := h.mem_iff index
  unfold listActive
  split_ifs with hnow hcon
  · rfl
  · exact absurd (contains_iff_mem.mpr (hmem.mpr hnow)) hcon
  · exact erase_of_not_mem fun hin => hnow (hmem.mp hin)

theorem Listed.write (h : Listed s) (isActiveNow : Bool)
    (hact : s'.activeValidators = listActive s.activeValidators index isActiveNow)
    (hnow : s'.isActive index = isActiveNow) (hoth : ∀ other, other ≠ index →
      s'.validators.lookup other = s.validators.lookup other) : Listed s' where
  nodup := hact ▸ nodup_listActive h.nodup
  mem_iff other := by
    rw [hact, mem_listActive h.nodup]
    split_ifs with heq
    · rw [heq, hnow]
    · rw [h.mem_iff, isActive, isActive, hoth other heq]

theorem Listed.withStatus (h : Listed s) (status : ValidatorStatus) :
    Listed (s.withStatus index v status) := by
  have hget : (s.withStatus index v status).validators.lookup index =
      some { v with status } := lookup_insert _
  exact h.write (status == .active) rfl (isActive_of_lookup hget) fun _ hne =>
    lookup_insert_of_ne _ hne

theorem updateActiveList_eq (s : ValidatorSet) (wasActive isActiveNow : Bool)
    (h : listActive s.activeValidators index wasActive = s.activeValidators) :
    updateActiveList index wasActive isActiveNow s = .ok ()
      { s with
        activeValidators := listActive s.activeValidators index isActiveNow } := by
  cases wasActive with
  | false =>
    cases isActiveNow with
    | false => rw [h]; rfl
    | true =>
      change (if (!s.activeValidators.contains index) = true then _ else _ : Method _ _ _) s = _
      rw [listActive]
      cases s.activeValidators.contains index <;> rfl
  | true =>
    cases isActiveNow with
    | false => rfl
    | true => rw [h]; rfl

theorem updateValidatorStatus_of_none (h : self.validators.lookup index = none) :
    updateValidatorStatus index status self =
      .err (.validatorError "Validator not found") self := by
  rw [updateValidatorStatus, bind_read, h]
  rfl

theorem updateValidatorStatus_of_some (h : Listed s)
    (hget : s.validators.lookup index = some v) :
    updateValidatorStatus index status s = .ok () (s.withStatus index v status) := by
  have hlis := h.listActive_eq index
  rw [isActive_of_lookup hget] at hlis
  rw [updateValidatorStatus, bind_read, hget]
  exact updateActiveList_eq { s with validators := _ } _ _ hlis

def counted (self : ValidatorSet) (index : UInt64) : Nat :=
  ((self.validators.lookup index).map activeStake).getD 0

theorem counted_of_lookup (h : s.validators.lookup index = some v) :
    s.counted index = activeStake v := by
  rw [counted, h]
  rfl

theorem counted_of_not_isActive (h : s.isActive index = false) : s.counted index = 0 := by
  cases hget : s.validators.lookup index with
  | none =>
    rw [counted, hget]
    rfl
  | some v =>
    rw [isActive_of_lookup hget, beq_eq_false_iff_ne] at h
    rw [counted_of_lookup hget]
    exact if_neg h

theorem Sound.write_iff (h : Sound s) (hlis : Listed s')
    (hvals : s'.validators = s.validators.insert index v) : Sound s' ↔
      s'.totalStake.toNat + s.counted index =
        s.totalStake.toNat + activeStake v := by
  have hins := MapTotal.total_insert activeStake s.validators index v
  rw [← hvals, ← h.total] at hins
  change _ + s.counted index = _ at hins
  constructor
  · intro h'
    rw [h'.total, hins]
  · intro htot
    exact ⟨hlis, by omega⟩

theorem activeStake_status :
    activeStake { v with status } = activeStake v ↔
      ((v.status = .active ↔ status = .active) ∨ v.stake = 0) := by
  have hzero : v.stake = 0 ↔ v.stake.toNat = 0 := BitVec.toNat_inj.symm
  rw [activeStake, activeStake, hzero]
  change (if status = .active then v.stake.toNat else 0) = _ ↔ _
  split_ifs with hnow hwas hwas
  · simp [hnow, hwas]
  · simp [hnow, hwas]
  · simp [hnow, hwas, eq_comm]
  · simp [hnow, hwas]

theorem Sound.withStatus_iff (h : Sound s) (hget : s.validators.lookup index = some v) :
    Sound (s.withStatus index v status) ↔
      ((v.status = .active ↔ status = .active) ∨ v.stake = 0) := by
  rw [h.write_iff (h.toListed.withStatus status) rfl, counted_of_lookup hget, ← activeStake_status]
  change s.totalStake.toNat + _ = s.totalStake.toNat + _ ↔ _
  omega

def after (call : Method ValidatorSet SSFError Unit) (self : ValidatorSet) : Option ValidatorSet :=
  match call self with
  | .ok _ self' => some self'
  | .err _ self' => some self'
  | .panic _ => none

/-- The call does not panic and leaves the set sound. -/
def KeepsSound (call : Method ValidatorSet SSFError Unit) (self : ValidatorSet) : Prop :=
  ∃ self' ∈ after call self, Sound self'

theorem keepsSound_of_ok (h : call s = .ok () s') : KeepsSound call s ↔ Sound s' := by
  simp [KeepsSound, after, h]

theorem keepsSound_of_err (h : call s = .err e s') : KeepsSound call s ↔ Sound s' := by
  simp [KeepsSound, after, h]

theorem keepsSound_total {total : Checked U256} (h : call s =
      (liftM total >>= fun totalStake => update fun s => { s with totalStake } :
        Method ValidatorSet SSFError Unit) s') :
    KeepsSound call s ↔ ∃ totalStake, total = .ok totalStake ∧ Sound { s' with totalStake } := by
  cases total with
  | ok totalStake => simp [keepsSound_of_ok h]
  | error p => simp [KeepsSound, after, h.trans (bind_checked_of_error rfl)]

def StatusFits (self : ValidatorSet) (index : UInt64) (status : ValidatorStatus) : Prop :=
  ∀ validator, self.validators.lookup index = some validator →
    ((validator.status = .active ↔ status = .active) ∨ validator.stake = 0)

theorem Sound.updateValidatorStatus_iff (h : Sound s) :
    KeepsSound (updateValidatorStatus index status) s ↔ s.StatusFits index status := by
  cases hget : s.validators.lookup index with
  | none =>
    rw [keepsSound_of_err (updateValidatorStatus_of_none hget)]
    simp [StatusFits, hget, h]
  | some v =>
    rw [keepsSound_of_ok (updateValidatorStatus_of_some h.toListed hget), h.withStatus_iff hget]
    simp [StatusFits, hget]

def AdditionFits (self : ValidatorSet) (validator : SSFValidator) : Prop :=
  if self.isActive validator.index then
    validator.status = .active ∧
      (self.validators.lookup validator.index).map (·.stake) = some validator.stake
  else validator.status = .active → self.totalStake.toNat + validator.stake.toNat < 2 ^ 256

def withValidator (self : ValidatorSet) (validator : SSFValidator) : ValidatorSet :=
  { self with validators := self.validators.insert validator.index validator }

theorem isActive_withValidator :
    (s.withValidator v).isActive v.index = (v.status == .active) := by
  have hget : (s.withValidator v).validators.lookup v.index =
      some v := lookup_insert _
  exact isActive_of_lookup hget

theorem addValidator_of_known
    (h : v.status = .active → v.index ∈ s.activeValidators) :
    addValidator v s = .ok () (s.withValidator v) := by
  rw [addValidator, bind_update, bind_read]
  split_ifs with hact
  · rw [bind_read]
    change (s.withValidator v).isActive _ = true at hact
    rw [isActive_withValidator, beq_iff_eq] at hact
    rw [if_neg]
    · rfl
    · simpa using h hact
  · rfl

theorem addValidator_of_fresh (hact : v.status = .active)
    (hfr : v.index ∉ s.activeValidators) :
    addValidator v s =
      (liftM (s.totalStake.add v.stake) >>= fun totalStake => update fun s =>
        { s with totalStake } : Method ValidatorSet SSFError Unit)
        { s.withValidator v with
          activeValidators := s.activeValidators ++ [v.index] } := by
  rw [addValidator, bind_update, bind_read, if_pos, bind_read, if_pos]
  · rfl
  · simpa using hfr
  · change (s.withValidator v).isActive _ = true
    rw [isActive_withValidator, hact]
    rfl

theorem Listed.withValidator (h : Listed s)
    (hsame : s.isActive v.index = (v.status == .active)) :
    Listed (s.withValidator v) := by
  refine h.write (v.status == .active) ?_ isActive_withValidator
    fun _ hne => lookup_insert_of_ne _ hne
  rw [← hsame, h.listActive_eq]
  rfl

theorem Sound.addValidator_over_active (h : Sound s) (hwas : s.isActive v.index = true) :
    KeepsSound (addValidator v) s ↔ v.status = .active ∧
      (s.validators.lookup v.index).map (·.stake) = some v.stake := by
  have hmem := (h.mem_iff v.index).mpr hwas
  rw [keepsSound_of_ok (addValidator_of_known fun _ => hmem)]
  obtain ⟨old, hold⟩ : ∃ old, s.validators.lookup v.index = some old := by
    cases hget : s.validators.lookup v.index with
    | none =>
      rw [isActive, hget] at hwas
      cases hwas
    | some old => exact ⟨old, rfl⟩
  have holdA : old.status = .active := by
    rwa [isActive_of_lookup hold, beq_iff_eq] at hwas
  have hcou : s.counted v.index = old.stake.toNat :=
    (counted_of_lookup hold).trans (if_pos holdA)
  rw [hold, Option.map_some, Option.some.injEq, ← BitVec.toNat_inj]
  have hiff (hnow : v.status = .active) :
      Sound (s.withValidator v) ↔ old.stake.toNat = v.stake.toNat := by
    have hsame : s.isActive v.index = (v.status == .active) := by
      rw [hwas, hnow]
      rfl
    have hstk : activeStake v = v.stake.toNat := if_pos hnow
    rw [h.write_iff (h.toListed.withValidator hsame) rfl]
    change s.totalStake.toNat + _ = s.totalStake.toNat + _ ↔ _
    omega
  constructor
  · intro h'
    have hnow : v.status = .active := by
      rw [← beq_iff_eq (a := v.status), ← isActive_withValidator]
      exact (h'.mem_iff v.index).mp hmem
    exact ⟨hnow, (hiff hnow).mp h'⟩
  · rintro ⟨hnow, hstk⟩
    exact (hiff hnow).mpr hstk

theorem Sound.addValidator_over_inactive (h : Sound s) (hwas : s.isActive v.index = false) :
    KeepsSound (addValidator v) s ↔
      (v.status = .active → s.totalStake.toNat + v.stake.toNat < 2 ^ 256) := by
  have hmem : v.index ∉ s.activeValidators := by
    rw [h.mem_iff, hwas]
    simp
  by_cases hnow : v.status = .active
  · have hstk : activeStake v = v.stake.toNat := if_pos hnow
    have hlis (totalStake : U256) : Listed { s.withValidator v with
        activeValidators := s.activeValidators ++ [v.index], totalStake } := by
      refine h.toListed.write true ?_ ?_ fun _ hne => lookup_insert_of_ne _ hne
      · rw [listActive, if_pos rfl, if_neg]
        simpa using hmem
      · refine (isActive_withValidator).trans ?_
        rw [hnow]
        rfl
    rw [imp_iff_right hnow, keepsSound_total (addValidator_of_fresh hnow hmem)]
    constructor
    · rintro ⟨total, hadd, -⟩
      rw [U256.add_eq_ok] at hadd
      exact hadd ▸ total.isLt
    · intro hlt
      have hadd : s.totalStake.add v.stake = .ok _ := if_pos hlt
      refine ⟨_, hadd, (h.write_iff (hlis _) rfl).mpr ?_⟩
      rw [U256.add_eq_ok.mp hadd, counted_of_not_isActive hwas, hstk, add_zero]
  · have hstk : activeStake v = 0 := if_neg hnow
    have hsame : s.isActive v.index = (v.status == .active) := by
      rw [hwas, beq_false_of_ne hnow]
    rw [keepsSound_of_ok (addValidator_of_known fun hact => absurd hact hnow),
      h.write_iff (h.toListed.withValidator hsame) rfl, counted_of_not_isActive hwas, hstk]
    exact iff_of_true rfl fun hact => absurd hact hnow

theorem Sound.addValidator_iff (h : Sound s) :
    KeepsSound (addValidator v) s ↔ s.AdditionFits v := by
  cases hwas : s.isActive v.index with
  | true =>
    rw [AdditionFits, if_pos hwas]
    exact h.addValidator_over_active hwas
  | false =>
    rw [AdditionFits, hwas]
    exact h.addValidator_over_inactive hwas

def withoutValidator (self : ValidatorSet) (index : UInt64) : ValidatorSet :=
  { self with
    validators := self.validators.erase index
    activeValidators := self.activeValidators.erase index }

theorem Listed.withoutValidator (h : Listed s) : Listed (s.withoutValidator index) := by
  refine h.write false rfl ?_ fun _ hne => lookup_erase_ne hne
  have hget : (s.withoutValidator index).validators.lookup index = none := lookup_erase _ _
  rw [isActive, hget]
  rfl

theorem removeValidator_of_mem (hget : s.validators.lookup index = some v)
    (hmem : index ∈ s.activeValidators) :
    removeValidator index s =
      (liftM (s.totalStake.sub v.stake) >>= fun totalStake => update fun s =>
        { s with totalStake } : Method ValidatorSet SSFError Unit)
        (s.withoutValidator index) := by
  rw [removeValidator, bind_read, hget]
  change (if s.activeValidators.contains index = true then _ else _ : Method _ _ _) _ = _
  rw [if_pos (contains_iff_mem.mpr hmem)]
  rfl

theorem removeValidator_of_notMem (hget : s.validators.lookup index = some v)
    (hmem : index ∉ s.activeValidators) :
    removeValidator index s = .ok () (s.withoutValidator index) := by
  rw [removeValidator, bind_read, hget, withoutValidator, erase_of_not_mem hmem]
  change (if s.activeValidators.contains index = true then _ else _ : Method _ _ _) _ = _
  rw [if_neg fun hcon => hmem (contains_iff_mem.mp hcon)]
  rfl

theorem Sound.removeValidator (h : Sound self) : KeepsSound (removeValidator index) self := by
  cases hget : self.validators.lookup index with
  | none =>
    have hres : ValidatorSet.removeValidator index self =
        .err (.validatorError "Validator not found") self := by
      rw [ValidatorSet.removeValidator, bind_read, hget]
      rfl
    exact (keepsSound_of_err hres).mpr h
  | some validator =>
    have hera := MapTotal.total_erase activeStake hget
    have hmem := h.mem_iff index
    rw [isActive_of_lookup hget, beq_iff_eq] at hmem
    rw [← h.total] at hera
    by_cases hact : validator.status = .active
    · have hstk : activeStake validator = validator.stake.toNat := if_pos hact
      have hle : validator.stake ≤ self.totalStake := by
        rw [BitVec.le_def]
        omega
      have hsub : self.totalStake.sub validator.stake = .ok _ := if_pos hle
      refine (keepsSound_total (removeValidator_of_mem hget (hmem.mpr hact))).mpr
        ⟨_, hsub, h.toListed.withoutValidator.of_total _, ?_⟩
      rw [U256.sub_eq_ok] at hsub
      change (self.totalStake - validator.stake).toNat =
        MapTotal.total activeStake (self.validators.erase index)
      omega
    · have hstk : activeStake validator = 0 := if_neg hact
      refine (keepsSound_of_ok (removeValidator_of_notMem hget (mt hmem.mp hact))).mpr
        ⟨h.toListed.withoutValidator, ?_⟩
      change self.totalStake.toNat = MapTotal.total activeStake (self.validators.erase index)
      omega

def penalty (validator : SSFValidator) : U256 := validator.stake / 32

theorem toNat_penalty : (penalty v).toNat = v.stake.toNat / 32 := BitVec.toNat_udiv

def withPenalty (self : ValidatorSet) (index : UInt64) (validator : SSFValidator)
    (epoch : UInt64) : ValidatorSet :=
  { self.withStatus index validator (.slashed epoch) with
    validators := self.validators.insert index
      { validator with stake := validator.stake - penalty validator, status := .slashed epoch } }

theorem Listed.withPenalty (h : Listed s) (epoch : UInt64) :
    Listed (s.withPenalty index v epoch) := by
  have hget : (s.withPenalty index v epoch).validators.lookup index = some
      { v with stake := v.stake - penalty v, status := .slashed epoch } :=
    lookup_insert _
  exact h.write false rfl (isActive_of_lookup hget) fun _ hne =>
    lookup_insert_of_ne _ hne

theorem slashValidator_of_some (h : Listed s)
    (hget : s.validators.lookup index = some v) (epoch : UInt64) :
    slashValidator index epoch s =
      (liftM (s.totalStake.sub (penalty v)) >>= fun totalStake => update fun s =>
        { s with totalStake } : Method ValidatorSet SSFError Unit)
        (s.withPenalty index v epoch) := by
  have hsla : (s.withStatus index v (.slashed epoch)).validators.lookup index =
      some { v with status := .slashed epoch } := lookup_insert _
  have hsub : v.stake.sub (penalty v) =
      .ok (v.stake - penalty v) := by
    refine if_pos ?_
    exact Nat.div_le_self _ _
  rw [slashValidator, bind_of_ok (updateValidatorStatus_of_some h hget), bind_read, hsla]
  change (liftM (v.stake.sub (penalty v)) >>= _ :
    Method ValidatorSet SSFError Unit) _ = _
  -- the second write to the map replaces the first
  have hpen : s.withPenalty index v epoch =
      { s.withStatus index v (.slashed epoch) with
        validators := (s.withStatus index v (.slashed epoch)).validators.insert index
          { v with
            stake := v.stake - penalty v, status := .slashed epoch } } :=
    congrArg (fun validators =>
      { s.withStatus index v (.slashed epoch) with validators })
      (insert_insert _).symm
  rw [hsub, hpen]
  rfl

theorem Sound.slashValidator_iff (h : Sound self) (epoch : UInt64) :
    KeepsSound (slashValidator index epoch) self ↔
      ∀ validator, self.validators.lookup index = some validator →
        validator.stake.toNat / 32 = activeStake validator := by
  cases hget : self.validators.lookup index with
  | none =>
    have hres : slashValidator index epoch self =
        .err (.validatorError "Validator not found") self :=
      bind_of_err (updateValidatorStatus_of_none hget)
    rw [keepsSound_of_err hres]
    simp [h]
  | some validator =>
    simp only [Option.some.injEq, forall_eq']
    have hcou : activeStake validator ≤ self.totalStake.toNat := by
      rw [h.total]
      exact MapTotal.weight_le_total activeStake hget
    have hsnd (total : U256) : Sound { self.withPenalty index validator epoch with
        totalStake := total } ↔ total.toNat + activeStake validator = self.totalStake.toNat := by
      rw [h.write_iff ((h.toListed.withPenalty epoch).of_total total) rfl,
        counted_of_lookup hget]
      rfl
    simp only [keepsSound_total (slashValidator_of_some h.toListed hget epoch), hsnd,
      U256.sub_eq_ok, toNat_penalty]
    constructor
    · rintro ⟨total, hsub, htot⟩
      omega
    · intro hpen
      refine ⟨.ofNat 256 (self.totalStake.toNat - activeStake validator), ?_⟩
      rw [U256.toNat_ofNat (by omega)]
      omega

theorem keepsSound_of_sat (h : Sat call s (fun _ => Sound) (fun _ => Sound) (fun _ => False)) :
    KeepsSound call s := by
  cases hcall : call s with
  | ok _ s' => exact (keepsSound_of_ok hcall).mpr (h.of_ok hcall)
  | err e s' => exact (keepsSound_of_err hcall).mpr (h.of_err hcall)
  | panic p => exact (h.of_panic hcall).elim

structure Transitioning (toExit : List UInt64) (set : ValidatorSet) : Prop extends Sound set where
  inactive : ∀ index ∈ toExit, set.isActive index = false

theorem Transitioning.withdraw (h : Transitioning toExit s) (hidx : index ∈ toExit) :
    Sat (updateValidatorStatus index .withdrawn) s (fun _ => Transitioning toExit)
      (fun _ => Sound) (fun _ => False) := by
  have hwas := h.inactive index hidx
  cases hget : s.validators.lookup index with
  | none =>
    rw [Sat, updateValidatorStatus_of_none hget]
    exact h.toSound
  | some v =>
    rw [Sat, updateValidatorStatus_of_some h.toListed hget]
    rw [isActive_of_lookup hget, beq_eq_false_iff_ne] at hwas
    refine ⟨(h.toSound.withStatus_iff hget).mpr (.inl (iff_of_false hwas (by simp))), ?_⟩
    intro other hoth
    by_cases heq : other = index
    · have hnow : (s.withStatus index v .withdrawn).validators.lookup index =
          some { v with status := .withdrawn } := lookup_insert _
      rw [heq, isActive_of_lookup hnow]
      rfl
    · have hsame : (s.withStatus index v .withdrawn).validators.lookup other =
          s.validators.lookup other := lookup_insert_of_ne _ heq
      rw [isActive, hsame]
      exact h.inactive other hoth

theorem Sound.processEpochTransition (h : Sound s) (newEpoch : UInt64) (order : List UInt64) :
    KeepsSound (processEpochTransition newEpoch order) s := by
  refine keepsSound_of_sat ?_
  rw [ValidatorSet.processEpochTransition, sat_bind, sat_update, sat_bind, sat_read]
  set toExit := order.filter fun index =>
    ((s.validators.lookup index).map (·.status.exitsBy newEpoch)).getD false with htoE
  have hst : Transitioning toExit { s with epoch := newEpoch } := by
    refine ⟨⟨⟨h.nodup, h.mem_iff⟩, h.total⟩, fun index hidx => ?_⟩
    have hexi := (mem_filter.mp hidx).2
    cases hget : s.validators.lookup index with
    | none => simp [isActive, hget]
    | some v =>
      rw [hget] at hexi
      change (s.isActive index) = false
      rw [isActive_of_lookup hget, beq_eq_false_iff_ne]
      intro hact
      rw [Option.map_some, hact] at hexi
      cases hexi
  refine (sat_foldlM (I := fun _ _ => Transitioning toExit) ?_ hst).mono
    (fun _ _ h' => h'.toSound) (fun _ _ => id) fun _ => id
  intro ys index zs hxs _ s' h'
  exact h'.withdraw (hxs ▸ mem_append_right ys mem_cons_self)

end

inductive ValidatorCall where
  | addValidator (validator : SSFValidator)
  | removeValidator (index : UInt64)
  | updateValidatorStatus (index : UInt64) (status : ValidatorStatus)
  | slashValidator (index epoch : UInt64)
  | initiateExit (index exitEpoch : UInt64)
  | processEpochTransition (newEpoch : UInt64) (order : List UInt64)

namespace ValidatorCall

def run : ValidatorCall → Method ValidatorSet SSFError Unit
  | .addValidator validator => ValidatorSet.addValidator validator
  | .removeValidator index => ValidatorSet.removeValidator index
  | .updateValidatorStatus index status => ValidatorSet.updateValidatorStatus index status
  | .slashValidator index epoch => ValidatorSet.slashValidator index epoch
  | .initiateExit index exitEpoch => ValidatorSet.initiateExit index exitEpoch
  | .processEpochTransition newEpoch order => ValidatorSet.processEpochTransition newEpoch order

/-- When the total stays the sum of the active stakes, call by call. -/
def Fits (self : ValidatorSet) : ValidatorCall → Prop
  | .addValidator validator => self.AdditionFits validator
  | .removeValidator _ => True
  | .updateValidatorStatus index status => self.StatusFits index status
  | .slashValidator index _ => ∀ validator, self.validators.lookup index = some validator →
      validator.stake.toNat / 32 = activeStake validator
  | .initiateExit index exitEpoch => self.StatusFits index (.exiting exitEpoch)
  | .processEpochTransition _ _ => True

end ValidatorCall

def perform (self : ValidatorSet) (call : ValidatorCall) : Option ValidatorSet :=
  after call.run self

/-- When a call keeps a sound set sound. -/
theorem sound_after_iff (h : Sound s) (call : ValidatorCall) :
    KeepsSound call.run s ↔ call.Fits s := by
  cases call with
  | addValidator v => exact h.addValidator_iff
  | removeValidator index => exact iff_of_true h.removeValidator trivial
  | updateValidatorStatus index status => exact h.updateValidatorStatus_iff
  | slashValidator index epoch => exact h.slashValidator_iff epoch
  | initiateExit index exitEpoch => exact h.updateValidatorStatus_iff
  | processEpochTransition newEpoch order =>
    exact iff_of_true (h.processEpochTransition newEpoch order) trivial

/-- From the empty set, the calls all return and leave the bookkeeping right exactly if each of
them fits the state it is made in. -/
theorem always_sound_iff (calls : List ValidatorCall) :
    (Sound new ∧ History.Along perform (fun s call => KeepsSound call.run s) new calls) ↔
      History.Along perform (fun s call => call.Fits s) new calls := by
  rw [and_iff_right sound_new]
  refine History.along_iff Sound (fun s call h => sound_after_iff h call) ?_ sound_new
  intro s call s' _ hkee haft
  obtain ⟨after, haft', hsnd⟩ := hkee
  rw [perform, Option.mem_def.mp haft', Option.some.injEq] at haft
  exact haft ▸ hsnd

/-- `update_validator_status` activates a validator and does not count its stake. -/
theorem not_always_sound_activated :
    ¬History.Along perform (fun s call => KeepsSound call.run s) new
      [.addValidator ⟨0, 32, .pending⟩, .updateValidatorStatus 0 .active] := by
  rintro ⟨-, h⟩
  obtain ⟨s, hself, hsnd⟩ := (h _ rfl).1
  cases hself
  have htot := hsnd.total
  revert htot
  decide

end ValidatorSet

end EthereumRust.Ssf
