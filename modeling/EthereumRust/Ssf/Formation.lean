import EthereumRust.Lib.Batches
import EthereumRust.Lib.Dealing
import EthereumRust.Ssf.Committee
import EthereumRust.Ssf.ValidatorSet

/-!
# Forming committees (`crates/ssf/src/committee.rs`)

`form_committees` divides the active validators by one of four strategies: slices of a shuffled
list, committees filled up to a share of the stake, slices of a list sorted by effectiveness, and
dealing out a list sorted by a score.

Floating-point numbers and the random number generator are parameters.
-/

namespace EthereumRust.Ssf
open Rust Method
open List hiding count

class F64 (F : Type) extends Add F, Mul F, Div F, Mod F, Min F, OfScientific F where
  ofNat : Nat → F
  ge : F → F → Bool
  partialCmp : F → F → Option Ordering

structure StdRng (F : Type) where
  shuffle : List SSFValidator → List SSFValidator
  shuffle_perm : ∀ validators, (shuffle validators).Perm validators
  gen : Nat → F

class SeedableRng (F : Type) where
  fromSeed : H256 → StdRng F

inductive CommitteeSelection (F : Type) where
  | random (seed : H256)
  | stakeWeighted (minStake : U256)
  | performanceBased (minEffectiveness : F)
  | hybrid (stakeWeight performanceWeight randomnessWeight : F)

structure CommitteeConfig (F : Type) where
  targetCommitteeSize : Nat
  maxCommittees : Nat
  selectionStrategy : CommitteeSelection F

/-- The validator set is here what `form_committees` reads of it. -/
structure CommitteeManager (F : Type) where
  committees : List Committee
  activeValidators : List SSFValidator
  totalStake : U256
  config : CommitteeConfig F
  committeeAssignments : HashMap UInt64 Nat

def SSFValidator.info (self : SSFValidator) : ValidatorInfo := ⟨self.index, [], self.stake⟩

/-- `sort_by` with `partial_cmp(..).unwrap()`, for a stable sort. Each item is compared with some
other, so a number that compares with none panics. -/
def sortBy {α : Type} (cmp : α → α → Option Ordering) (l : List α) : Checked (List α) :=
  if l.Pairwise fun a b => (cmp a b).isSome then
    .ok (l.insertionSort fun a b => cmp a b ≠ some .gt)
  else .error .unwrap

section
variable {F : Type}

namespace CommitteeConfig

variable (self : CommitteeConfig F)

def committeeCount (eligible : Nat) : Checked Nat := do
  let count ← divUsize eligible self.targetCommitteeSize
  return min (max count 1) self.maxCommittees

def formSlices (validators : List ValidatorInfo) : Checked (List Committee) := do
  let count ← self.committeeCount validators.length
  let perCommittee ← divUsize validators.length count
  (List.range count).mapM fun i => Committee.new i (Dealing.part count perCommittee validators i)

def formRandomCommittees [SeedableRng F] (validators : List SSFValidator) (seed : H256) :
    Checked (List Committee) :=
  let shuffled := (SeedableRng.fromSeed (F := F) seed).shuffle validators
  self.formSlices (shuffled.map (·.info))

structure Filling where
  committees : List Committee := []
  currentCommittee : List ValidatorInfo := []
  committeeStake : U256 := 0

def Filling.close (s : Filling) : Checked Filling := do
  let committee ← Committee.new s.committees.length s.currentCommittee
  return { committees := s.committees ++ [committee] }

def Filling.finish (s : Filling) : Checked (List Committee) :=
  if s.currentCommittee.isEmpty then .ok s.committees
  else do return (← s.close).committees

def fill (targetStake : U256) (s : Filling) (validator : SSFValidator) : Checked Filling := do
  let currentCommittee := s.currentCommittee ++ [validator.info]
  let committeeStake ← s.committeeStake.add validator.stake
  let s := { s with currentCommittee, committeeStake }
  if committeeStake ≥ targetStake ∨ currentCommittee.length ≥ self.targetCommitteeSize then s.close
  else return s

def formStakeWeightedCommittees (validators : List SSFValidator) (totalStake minStake : U256) :
    Checked (List Committee) := do
  let eligible := validators.filter fun v => minStake ≤ v.stake
  let eligible := Batches.sortByKey (fun v => OrderDual.toDual v.stake.toNat) eligible
  let count ← self.committeeCount eligible.length
  let targetStake ← totalStake.div (U256.ofUsize count)
  let s ← eligible.foldlM (self.fill targetStake) {}
  s.finish

end CommitteeConfig

variable [F64 F]

def mockEffectiveness (self : SSFValidator) : F :=
  0.5 + (F64.ofNat self.index.toNat % 50.0) / 100.0

namespace CommitteeConfig

variable (self : CommitteeConfig F)

def formPerformanceCommittees (validators : List SSFValidator) (minEffectiveness : F) :
    Checked (List Committee) := do
  let eligible := validators.filter fun v => F64.ge (mockEffectiveness v) minEffectiveness
  let sorted ← sortBy (fun a b =>
    F64.partialCmp (mockEffectiveness b : F) (mockEffectiveness a)) eligible
  self.formSlices (sorted.map (·.info))

def totalScore (stakeWeight performanceWeight randomnessWeight randomScore : F)
    (v : SSFValidator) : Checked F := do
  let stake ← v.stake.asU128
  let stakeScore := min (F64.ofNat stake / 1e18) 100.0 / 100.0
  return stakeScore * stakeWeight + mockEffectiveness v * performanceWeight +
    randomScore * randomnessWeight

def scoreValidators [SeedableRng F] (validators : List SSFValidator)
    (stakeWeight performanceWeight randomnessWeight : F) (seed : H256) :
    Checked (List (SSFValidator × F)) :=
  let rng := SeedableRng.fromSeed (F := F) seed
  validators.zipIdx.mapM fun v => do
    let score ← totalScore stakeWeight performanceWeight randomnessWeight (rng.gen v.2) v.1
    return (v.1, score)

def formHybridCommittees [SeedableRng F] (validators : List SSFValidator)
    (stakeWeight performanceWeight randomnessWeight : F) (seed : H256) :
    Checked (List Committee) := do
  let scored ← scoreValidators validators stakeWeight performanceWeight randomnessWeight seed
  let sorted ← sortBy (fun a b => F64.partialCmp b.2 a.2) scored
  let count ← self.committeeCount sorted.length
  let committees ← (sorted.map (·.1.info)).zipIdx.foldlM (fun committees v => do
    let committeeIndex ← remUsize v.2 count
    return committees.modify committeeIndex (· ++ [v.1])) (List.replicate count [])
  committees.zipIdx.mapM fun group => Committee.new group.2 group.1

end CommitteeConfig

namespace CommitteeManager

variable (self : CommitteeManager F)

def select [SeedableRng F] (validators : List SSFValidator) (seed : H256) :
    Checked (List Committee) :=
  match self.config.selectionStrategy with
  | .random _ => self.config.formRandomCommittees validators seed
  | .stakeWeighted minStake =>
    self.config.formStakeWeightedCommittees validators self.totalStake minStake
  | .performanceBased minEffectiveness =>
    self.config.formPerformanceCommittees validators minEffectiveness
  | .hybrid stakeWeight performanceWeight randomnessWeight =>
    self.config.formHybridCommittees validators stakeWeight performanceWeight randomnessWeight seed

end CommitteeManager

def assign (committees : List Committee) : HashMap UInt64 Nat :=
  committees.zipIdx.foldl (fun assignments committee =>
    committee.1.validators.foldl (fun assignments validator =>
      assignments.insert validator.index committee.2) assignments) ∅

def CommitteeManager.formCommittees [SeedableRng F] (seed : H256) :
    Method (CommitteeManager F) SSFError (List Committee) := do
  let activeValidators ← Method.read (·.activeValidators)
  if activeValidators.isEmpty then Method.fail (.committeeError "No active validators")
  else
    let committees ← (← Method.read fun self => self.select activeValidators seed)
    Method.update fun self =>
      { self with committeeAssignments := assign committees, committees }
    return committees

end

def stakes (members : List ValidatorInfo) : Nat := (members.map (·.stake.toNat)).sum

theorem stakes_append : stakes (members ++ members') = stakes members + stakes members' := by
  rw [stakes, map_append, sum_append]
  rfl

theorem stakes_perm (h : members.Perm members') : stakes members = stakes members' :=
  (h.map _).sum_eq

structure Formed (committees : List Committee) (members : List ValidatorInfo) : Prop where
  perm : (committees.flatMap (·.validators)).Perm members
  stake : ∀ committee ∈ committees, committee.totalStake.toNat = stakes committee.validators

theorem Formed.of_perm {validators validators' : List SSFValidator}
    (h : Formed coms (validators.map (·.info))) (hperm : validators.Perm validators') :
    Formed coms (validators'.map (·.info)) :=
  ⟨h.perm.trans (hperm.map _), h.stake⟩

theorem Formed.concat {com : Committee} (h : Formed coms members)
    (hstk : com.totalStake.toNat = stakes com.validators) :
    Formed (coms ++ [com]) (members ++ com.validators) where
  perm := by
    rw [flatMap_append, flatMap_singleton]
    exact h.perm.append_right _
  stake := forall_mem_append.mpr ⟨h.stake, forall_mem_singleton.mpr hstk⟩

open Checked (Ensures)

theorem ensures_new :
    Ensures (stakes members < 2 ^ 256) (Committee.new index members) fun com =>
      com.validators = members ∧
        com.totalStake.toNat = stakes com.validators where
  of_ok com h := by
    obtain ⟨stake, hsum, h⟩ := h.of_bind
    cases h
    rw [U256.sum_eq_ok, map_map] at hsum
    exact ⟨rfl, hsum⟩
  returns hfits := by
    cases hsum : U256.sum (members.map (·.stake)) with
    | ok stake => exact ⟨_, Except.bind_eq_ok.mpr ⟨stake, hsum, rfl⟩⟩
    | error p =>
      have hle := U256.le_of_sum_eq_error hsum
      rw [map_map] at hle
      exact absurd hfits (not_lt.mpr hle)

theorem ensures_mapM_new {α : Type} (index : α → Nat) (group : α → List ValidatorInfo)
    (l : List α) :
    Ensures (stakes (l.flatMap group) < 2 ^ 256)
      (l.mapM fun a => Committee.new (index a) (group a)) (Formed · (l.flatMap group)) := by
  induction l with
  | nil => exact .intro rfl ⟨.refl _, forall_mem_nil _⟩
  | cons a l ih =>
    rw [mapM_cons, flatMap_cons, stakes_append]
    refine ((ensures_new).mono (by omega) fun _ h => h).bind ?_
    rintro com ⟨hvals, hstk⟩
    refine (ih.mono (by omega) fun _ h => h).bind fun rest hrest => .intro rfl ⟨?_, ?_⟩
    · rw [flatMap_cons, hvals]
      exact hrest.perm.append_left _
    · exact forall_mem_cons.mpr ⟨hstk, hrest.stake⟩

theorem ensures_sortBy (cmp : α → α → Option Ordering) :
    Ensures (l.Pairwise fun a b => (cmp a b).isSome) (sortBy cmp l) (·.Perm l) := by
  rw [sortBy]
  split_ifs with hcom
  · exact .intro rfl (perm_insertionSort _ _)
  · refine ⟨fun _ h => ?_, fun h => absurd h hcom⟩
    cases h

namespace CommitteeConfig

structure Filled (s : Filling) (done : List ValidatorInfo) : Prop where
  formed : ∃ closed, Formed s.committees closed ∧ closed ++ s.currentCommittee = done
  stake : s.committeeStake.toNat = stakes s.currentCommittee

variable {self : CommitteeConfig F} {validators : List SSFValidator} {ready : Prop}

theorem ensures_committeeCount (htgt : 1 ≤ self.targetCommitteeSize)
    (hmax : 1 ≤ self.maxCommittees) :
    Ensures ready (self.committeeCount eligible) fun count =>
      0 < count ∧ count ≤ self.maxCommittees := by
  have hdiv : divUsize eligible self.targetCommitteeSize =
      .ok (eligible / self.targetCommitteeSize) := if_neg (Nat.ne_of_gt htgt)
  refine .intro (Except.bind_eq_ok.mpr ⟨_, hdiv, rfl⟩) ?_
  exact ⟨Nat.lt_min.mpr ⟨Nat.le_max_right _ _, hmax⟩, Nat.min_le_right _ _⟩

theorem ensures_formSlices (htgt : 1 ≤ self.targetCommitteeSize) (hmax : 1 ≤ self.maxCommittees) :
    Ensures (stakes members < 2 ^ 256) (self.formSlices members) (Formed · members) := by
  refine (ensures_committeeCount htgt hmax).bind ?_
  rintro count ⟨hpos, -⟩
  refine .bind_of_ok (if_neg (ne_of_gt hpos)) ?_
  have hsli := ensures_mapM_new id (Dealing.part count (members.length / count) members)
    (range count)
  rwa [Dealing.flatMap_part hpos] at hsli

variable {s : Filling}

theorem Filled.stakes_le (H : Filled s done) : stakes s.currentCommittee ≤ stakes done := by
  obtain ⟨closed, -, rfl⟩ := H.formed
  rw [stakes_append]
  exact Nat.le_add_left _ _

theorem Filled.ensures_close (H : Filled s done) :
    Ensures (stakes done < 2 ^ 256) s.close fun s' => Formed s'.committees done ∧
      Filled s' done := by
  refine ((ensures_new).mono H.stakes_le.trans_lt fun _ h => h).bind ?_
  rintro com ⟨hvals, hstk⟩
  obtain ⟨closed, hfm, rfl⟩ := H.formed
  have hcon := hfm.concat hstk
  rw [hvals] at hcon
  exact .intro rfl ⟨hcon, ⟨_, hcon, append_nil _⟩, rfl⟩

theorem Filled.ensures_fill (H : Filled s done) (targetStake : U256) (v : SSFValidator) :
    Ensures (stakes (done ++ [v.info]) < 2 ^ 256) (self.fill targetStake s v)
      (Filled · (done ++ [v.info])) := by
  have hsta : stakes (s.currentCommittee ++ [v.info]) =
      s.committeeStake.toNat + v.stake.toNat := by
    rw [H.stake]
    exact stakes_append
  have hadd : Ensures (stakes (done ++ [v.info]) < 2 ^ 256)
      (s.committeeStake.add v.stake) fun committeeStake =>
        Filled { s with currentCommittee := s.currentCommittee ++ [v.info],
                        committeeStake } (done ++ [v.info]) := by
    obtain ⟨closed, hfm, rfl⟩ := H.formed
    refine ⟨fun committeeStake hadd => ⟨⟨closed, hfm, ?_⟩, ?_⟩, fun hfits => ?_⟩
    · exact (append_assoc _ _ _).symm
    · rw [U256.add_eq_ok.mp hadd, hsta]
    · rw [append_assoc, stakes_append, hsta] at hfits
      exact ⟨_, if_pos ((Nat.le_add_left _ _).trans_lt hfits)⟩
  refine hadd.bind fun committeeStake H' => ?_
  split_ifs
  · exact H'.ensures_close.mono id fun _ h => h.2
  · exact .intro rfl H'

theorem Filled.ensures_finish (H : Filled s done) :
    Ensures (stakes done < 2 ^ 256) s.finish (Formed · done) := by
  rw [Filling.finish]
  split_ifs with hemp
  · obtain ⟨closed, hfm, rfl⟩ := H.formed
    rw [isEmpty_iff.mp hemp, append_nil]
    exact .intro rfl hfm
  · exact H.ensures_close.bind fun s' h => .intro rfl h.1

theorem ensures_foldlM_fill :
    Ensures (stakes (validators.map (·.info)) < 2 ^ 256)
      (validators.foldlM (self.fill targetStake) {}) (Filled · (validators.map (·.info))) := by
  have hst : [] ++ validators = validators ∧ Filled {} (([] : List SSFValidator).map (·.info)) :=
    ⟨rfl, ⟨[], ⟨.refl _, forall_mem_nil _⟩, rfl⟩, rfl⟩
  refine (Ensures.foldlM (I := fun done rest s => done ++ rest = validators ∧
    Filled s (done.map (·.info))) ?_ hst).mono id fun s h => h.2
  rintro done v rest s ⟨hall, H⟩
  rw [append_cons] at hall
  refine (H.ensures_fill targetStake v).mono (fun hfits => ?_) fun s' H' => ⟨hall, ?_⟩
  · rw [← hall, map_append, stakes_append, map_append] at hfits
    exact (Nat.le_add_right _ _).trans_lt hfits
  · rwa [map_append]

section
variable {eligible : List SSFValidator}

theorem ensures_formStakeWeightedCommittees (htgt : 1 ≤ self.targetCommitteeSize)
    (hmax : 1 ≤ self.maxCommittees)
    (heli : validators.filter (fun v => minStake ≤ v.stake) = eligible) :
    Ensures (self.maxCommittees < wordBound ∧ stakes (eligible.map (·.info)) < 2 ^ 256)
      (self.formStakeWeightedCommittees validators stake minStake)
      (Formed · (eligible.map (·.info))) := by
  rw [formStakeWeightedCommittees, heli]
  have hsrt := Batches.perm_sortByKey (fun v : SSFValidator => OrderDual.toDual v.stake.toNat)
    eligible
  rw [← stakes_perm (hsrt.map _)]
  refine (ensures_committeeCount htgt hmax).bind fun count hcnt => ?_
  have hdiv : Ensures (self.maxCommittees < wordBound) (stake.div (U256.ofUsize count))
      fun _ => True := by
    refine ⟨fun _ _ => trivial, fun hword => ⟨_, if_neg fun hzero => ?_⟩⟩
    have hnat : (U256.ofUsize count).toNat = count :=
      U256.toNat_ofNat ((hcnt.2.trans_lt hword).trans (by decide))
    rw [hzero] at hnat
    exact hcnt.1.ne hnat
  refine (hdiv.mono (·.1) fun _ h => h).bind fun targetStake _ => ?_
  refine ((ensures_foldlM_fill).mono (·.2) fun _ h => h).bind fun s H => ?_
  exact H.ensures_finish.mono (·.2) fun coms hfm => hfm.of_perm hsrt

variable [F64 F]

theorem ensures_formPerformanceCommittees (htgt : 1 ≤ self.targetCommitteeSize)
    (hmax : 1 ≤ self.maxCommittees)
    (heli : validators.filter (fun v => F64.ge (mockEffectiveness v) minEffectiveness) = eligible) :
    Ensures ((eligible.Pairwise fun a b =>
        (F64.partialCmp (mockEffectiveness b : F) (mockEffectiveness a)).isSome) ∧
          stakes (eligible.map (·.info)) < 2 ^ 256)
      (self.formPerformanceCommittees validators minEffectiveness)
      (Formed · (eligible.map (·.info))) := by
  rw [formPerformanceCommittees, heli]
  refine ((ensures_sortBy _).mono (·.1) fun _ h => h).bind fun sorted hperm => ?_
  rw [← stakes_perm (hperm.map _)]
  exact (ensures_formSlices htgt hmax).mono (·.2) fun _ hfm => hfm.of_perm hperm

variable [SeedableRng F] {stakeWeight performanceWeight randomnessWeight : F} {seed : H256}

theorem scoreValidators_eq_ok
    (h : scoreValidators validators stakeWeight performanceWeight randomnessWeight seed =
      .ok scored) : scored.map Prod.fst = validators := by
  have hturn : ∀ (items : List (SSFValidator × Nat)) scored, items.mapM (fun v => do
      let score ← totalScore stakeWeight performanceWeight randomnessWeight
        ((SeedableRng.fromSeed (F := F) seed).gen v.2) v.1
      return (v.1, score)) = .ok scored → scored.map Prod.fst = items.map Prod.fst := by
    intro items
    induction items with
    | nil =>
      intro scored h
      cases h
      rfl
    | cons v items ih =>
      intro scored h
      rw [mapM_cons] at h
      obtain ⟨_, hsco, h⟩ := h.of_bind
      obtain ⟨score, -, hsco⟩ := hsco.of_bind
      obtain ⟨rest, hrest, h⟩ := h.of_bind
      cases hsco
      cases h
      rw [map_cons, map_cons, ih rest hrest]
  rw [hturn _ _ h, zipIdx_map_fst]

theorem foldlM_deal (hcnt : 0 < count) :
    (members.zipIdx.foldlM (fun coms v => do
      let committeeIndex ← remUsize v.2 count
      return coms.modify committeeIndex (· ++ [v.1])) (replicate count []) :
        Checked (List (List ValidatorInfo))) = .ok (Dealing.deal count members) := by
  have hrem : ∀ i, remUsize i count = pure (i % count) := fun i => if_neg (ne_of_gt hcnt)
  simp only [hrem]
  exact foldlM_pure

theorem ensures_formHybridCommittees (htgt : 1 ≤ self.targetCommitteeSize)
    (hmax : 1 ≤ self.maxCommittees) :
    Ensures ((∃ scored, scoreValidators validators stakeWeight performanceWeight randomnessWeight
        seed = .ok scored ∧ scored.Pairwise fun a b => (F64.partialCmp b.2 a.2).isSome) ∧
          stakes (validators.map (·.info)) < 2 ^ 256)
      (self.formHybridCommittees validators stakeWeight performanceWeight randomnessWeight seed)
      (Formed · (validators.map (·.info))) := by
  have hsco : Ensures (∃ scored, scoreValidators validators stakeWeight performanceWeight
      randomnessWeight seed = .ok scored ∧
        scored.Pairwise fun a b => (F64.partialCmp b.2 a.2).isSome)
      (scoreValidators validators stakeWeight performanceWeight randomnessWeight seed)
      (fun scored => scoreValidators validators stakeWeight performanceWeight randomnessWeight
        seed = .ok scored) := ⟨fun _ h => h, fun ⟨scored, h, _⟩ => ⟨scored, h⟩⟩
  refine (hsco.mono (·.1) fun _ h => h).bind fun scored hscor => ?_
  refine ((ensures_sortBy _).mono ?_ fun _ h => h).bind fun sorted hsrt => ?_
  · rintro ⟨⟨scored', hscor', hcom⟩, -⟩
    cases hscor.symm.trans hscor'
    exact hcom
  have hperm : (sorted.map (·.1.info)).Perm (validators.map (·.info)) := by
    rw [← scoreValidators_eq_ok hscor, map_map]
    exact hsrt.map _
  refine (ensures_committeeCount htgt hmax).bind fun count hcnt => ?_
  refine .bind_of_ok (foldlM_deal hcnt.1) ?_
  have hdea := (Dealing.flatten_deal hcnt.1 (sorted.map (·.1.info))).trans hperm
  have hgro := ensures_mapM_new Prod.snd Prod.fst
    (Dealing.deal count (sorted.map (·.1.info))).zipIdx
  rw [flatMap_def, zipIdx_map_fst, stakes_perm hdea] at hgro
  exact hgro.mono (·.2) fun _ hfm => ⟨hfm.perm.trans hdea, hfm.stake⟩

end

end CommitteeConfig

def CommitteeSelection.isEligible {F : Type} [F64 F] :
    CommitteeSelection F → SSFValidator → Bool
  | .random _, _ => true
  | .stakeWeighted minStake, v => minStake ≤ v.stake
  | .performanceBased minEffectiveness, v => F64.ge (mockEffectiveness v) minEffectiveness
  | .hybrid .., _ => true

section
variable {F : Type} [F64 F] [SeedableRng F]

namespace CommitteeManager

def eligible (self : CommitteeManager F) : List SSFValidator :=
  self.activeValidators.filter self.config.selectionStrategy.isEligible

/-- The strategy computes no number that does not fit, and compares no NaN. -/
def Computable (self : CommitteeManager F) (seed : H256) : Prop :=
  self.config.maxCommittees < wordBound ∧ stakes (self.eligible.map (·.info)) < 2 ^ 256 ∧
    match self.config.selectionStrategy with
    | .random _ | .stakeWeighted _ => True
    | .performanceBased _ => self.eligible.Pairwise fun a b =>
      (F64.partialCmp (mockEffectiveness b : F) (mockEffectiveness a)).isSome
    | .hybrid stakeWeight performanceWeight randomnessWeight =>
      ∃ scored, CommitteeConfig.scoreValidators self.activeValidators stakeWeight
        performanceWeight randomnessWeight seed = .ok scored ∧
          scored.Pairwise fun a b => (F64.partialCmp b.2 a.2).isSome

theorem ensures_select (self : CommitteeManager F) (seed : H256)
    (htgt : 1 ≤ self.config.targetCommitteeSize) (hmax : 1 ≤ self.config.maxCommittees) :
    Ensures (self.Computable seed) (self.select self.activeValidators seed)
      (Formed · (self.eligible.map (·.info))) := by
  unfold Computable select eligible
  cases self.config.selectionStrategy with
  | random seed' =>
    have hall : self.activeValidators.filter (CommitteeSelection.random seed' :
      CommitteeSelection F).isEligible = self.activeValidators := filter_true _
    have hperm := (SeedableRng.fromSeed (F := F) seed).shuffle_perm self.activeValidators
    rw [hall, ← stakes_perm (hperm.map _)]
    exact (CommitteeConfig.ensures_formSlices htgt hmax).mono (·.2.1)
      fun _ hfm => hfm.of_perm hperm
  | stakeWeighted minStake =>
    exact (CommitteeConfig.ensures_formStakeWeightedCommittees htgt hmax rfl).mono
      (fun h => ⟨h.1, h.2.1⟩) fun _ h => h
  | performanceBased minEffectiveness =>
    exact (CommitteeConfig.ensures_formPerformanceCommittees htgt hmax rfl).mono
      (fun h => ⟨h.2.2, h.2.1⟩) fun _ h => h
  | hybrid stakeWeight performanceWeight randomnessWeight =>
    have hall : self.activeValidators.filter (CommitteeSelection.hybrid stakeWeight
      performanceWeight randomnessWeight).isEligible = self.activeValidators := filter_true _
    rw [hall]
    exact (CommitteeConfig.ensures_formHybridCommittees htgt hmax).mono
      (fun h => ⟨h.2.2, h.2.1⟩) fun _ h => h

end CommitteeManager

end

def seats (committees : List Committee) : List (ValidatorInfo × Nat) :=
  committees.zipIdx.flatMap fun committee => committee.1.validators.map (·, committee.2)

theorem mem_seats : (v, pos) ∈ seats coms ↔ ∃ com, coms[pos]? = some com ∧ v ∈ com.validators := by
  simp only [seats, mem_flatMap, mem_map, Prod.exists, Prod.mk.injEq, mem_zipIdx_iff_getElem?]
  constructor
  · rintro ⟨com, i, hget, v, hv, rfl, rfl⟩
    exact ⟨com, hget, hv⟩
  · rintro ⟨com, hget, hv⟩
    exact ⟨com, pos, hget, v, hv, rfl, rfl⟩

theorem assign_eq_foldl :
    assign coms =
      (seats coms).foldl (fun assignments seat => assignments.insert seat.1.index seat.2) ∅ := by
  rw [assign, seats, foldl_flatMap]
  simp only [foldl_map]

theorem map_index_seats :
    (seats coms).map (·.1.index) = (coms.flatMap (·.validators)).map (·.index) := by
  rw [seats, map_flatMap, map_flatMap]
  conv_rhs => rw [← zipIdx_map_fst 0 coms, flatMap_map]
  simp only [map_map, Function.comp_def]

theorem lookup_assign (hnd : ((coms.flatMap (·.validators)).map (·.index)).Nodup) :
    (assign coms).lookup index = some pos ↔ ∃ v, (v, pos) ∈ seats coms ∧ v.index = index := by
  have hent {pos : Nat} (h : (assign coms).lookup index = some pos) :
      ∃ v, (v, pos) ∈ seats coms ∧ v.index = index := by
    rw [assign_eq_foldl] at h
    rcases HashMap.of_lookup_foldl_insert h with ⟨⟨v, _⟩, hseat, hidx, rfl⟩ | hemp
    · exact ⟨v, hseat, hidx⟩
    · cases hemp
  refine ⟨hent, ?_⟩
  rintro ⟨v, hseat, rfl⟩
  have hmem : v.index ∈ assign coms := by
    rw [assign_eq_foldl]
    exact HashMap.mem_foldl_insert (.inr ⟨(v, pos), hseat, rfl⟩)
  obtain ⟨pos', hget⟩ := Option.isSome_iff_exists.mp (Finmap.lookup_isSome.mpr hmem)
  obtain ⟨v', hseat', hidx⟩ := hent hget
  rw [← map_index_seats] at hnd
  cases inj_on_of_nodup_map hnd hseat' hseat hidx
  exact hget

structure Partition (eligible : List SSFValidator) (committees : List Committee)
    (assignments : HashMap UInt64 Nat) : Prop where
  /-- Every eligible validator is in exactly one committee. -/
  once : ∀ v ∈ eligible, ∃! position : Nat, ∃ committee : Committee,
    committees[position]? = some committee ∧ v.info ∈ committee.validators
  /-- In the committees together, every eligible validator stands once and no other at all. -/
  members : (committees.flatMap (·.validators)).Perm (eligible.map (·.info))
  assigned : ∀ index (position : Nat), assignments.lookup index = some position ↔
    ∃ committee : Committee, committees[position]? = some committee ∧
      ∃ v ∈ committee.validators, v.index = index
  stake : ∀ committee ∈ committees, committee.totalStake.toNat =
    (committee.validators.map (·.stake.toNat)).sum

theorem Formed.partition (h : Formed coms (eligible.map (·.info)))
    (hnd : (eligible.map (·.index)).Nodup) : Partition eligible coms (assign coms) := by
  have hind : ((coms.flatMap (·.validators)).map (·.index)).Nodup := by
    refine (h.perm.map _).nodup_iff.mpr ?_
    rwa [map_map]
  have hass : ∀ index pos, (assign coms).lookup index = some pos ↔
      ∃ com : Committee, coms[pos]? = some com ∧
        ∃ v ∈ com.validators, v.index = index := by
    intro index pos
    simp only [lookup_assign hind, mem_seats]
    grind
  refine ⟨fun v hv => ?_, h.perm, hass, h.stake⟩
  have hmem : v.info ∈ coms.flatMap (·.validators) := h.perm.mem_iff.mpr (mem_map_of_mem hv)
  obtain ⟨com, hcom, hvalidator⟩ := mem_flatMap.mp hmem
  obtain ⟨pos, hpos⟩ := getElem?_of_mem hcom
  refine ⟨pos, ⟨com, hpos, hvalidator⟩, ?_⟩
  rintro pos' ⟨com', hpos', hvalidator'⟩
  have hget := (hass v.index pos).mpr ⟨com, hpos, _, hvalidator, rfl⟩
  have hget' := (hass v.index pos').mpr ⟨com', hpos', _, hvalidator', rfl⟩
  exact Option.some.inj (hget'.symm.trans hget)

/-- Whenever committees are formed, they partition the eligible validators; and they are formed
unless a number does not fit or cannot be compared. -/
theorem formCommittees_partition {F : Type} [F64 F] [SeedableRng F] (self : CommitteeManager F)
    (seed : H256) (hactive : self.activeValidators ≠ [])
    (hnodup : (self.activeValidators.map (·.index)).Nodup)
    (htarget : 1 ≤ self.config.targetCommitteeSize) (hmax : 1 ≤ self.config.maxCommittees) :
    (∀ committees self', CommitteeManager.formCommittees seed self = .ok committees self' →
      Partition self.eligible committees self'.committeeAssignments) ∧
    (self.Computable seed →
      ∃ committees self', CommitteeManager.formCommittees seed self = .ok committees self') := by
  have hselect := self.ensures_select seed htarget hmax
  have hform : CommitteeManager.formCommittees seed self =
      (liftM (self.select self.activeValidators seed) >>= fun committees => do
        update fun self =>
          { self with committeeAssignments := assign committees, committees }
        return committees : Method (CommitteeManager F) SSFError (List Committee)) self := by
    rw [CommitteeManager.formCommittees, bind_read, if_neg (mt List.isEmpty_iff.mp hactive)]
    rfl
  constructor
  · intro committees self' h
    rw [hform] at h
    obtain ⟨committees, hcommittees, h⟩ := bind_checked_eq_ok.mp h
    cases h
    exact (hselect.of_ok _ hcommittees).partition (hnodup.sublist (List.filter_sublist.map _))
  · intro hcomputable
    obtain ⟨committees, hcommittees⟩ := hselect.returns hcomputable
    rw [hform]
    exact ⟨_, _, bind_checked_eq_ok.mpr ⟨committees, hcommittees, rfl⟩⟩

namespace Whole

scoped instance : F64 Nat where
  ofScientific mantissa negative exponent :=
    if negative then mantissa / 10 ^ exponent else mantissa * 10 ^ exponent
  ofNat n := n
  ge a b := decide (b ≤ a)
  partialCmp a b := some (compare a b)

scoped instance : SeedableRng Nat where
  fromSeed _ := ⟨List.reverse, List.reverse_perm, id⟩

def validators : List SSFValidator :=
  [⟨1, 32, .active⟩, ⟨2, 64, .active⟩, ⟨3, 32, .active⟩, ⟨4, 16, .active⟩, ⟨5, 32, .active⟩]

def manager : CommitteeManager Nat where
  committees := []
  activeValidators := validators
  totalStake := 176
  config := ⟨2, 2, .stakeWeighted 32⟩
  committeeAssignments := ∅

end Whole

open Whole in
theorem formCommittees_partition_sample :
    ∃ coms self', CommitteeManager.formCommittees H256.zero manager = .ok coms self' ∧
      Partition manager.eligible coms self'.committeeAssignments := by
  have H := formCommittees_partition manager H256.zero (by decide) (by decide) (by decide)
    (by decide)
  obtain ⟨coms, self', hform⟩ := H.2 ⟨by decide, by decide, trivial⟩
  exact ⟨coms, self', hform, H.1 coms self' hform⟩

end EthereumRust.Ssf
