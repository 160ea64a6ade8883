import EthereumRust.Consensus.Clique
import EthereumRust.Lib.History

/-!
# The window of recent signers

A block is recorded when its signer has not signed recently, and old entries are dropped from the
front of the list. What has been dropped is out of reach of every later block, so the list remembers
enough of the blocks recorded so far (`Remembers`).
-/

namespace EthereumRust.Consensus

open Rust Method EthereumRust.Core List

namespace Clique

section
variable {limit : Nat}

theorem signedWithin_eq_false (h : signedWithin limit signer numal es = .ok false) :
    ∀ entry ∈ es, entry.2 = signer → entry.1.toNat + limit < numal.toNat := by
  induction es with
  | nil => exact forall_mem_nil _
  | cons entry rest ih =>
    obtain ⟨num, recentSigner⟩ := entry
    obtain ⟨age, hage, h⟩ := h.of_bind
    rw [U256.sub_eq_ok] at hage
    split_ifs at h with hrec
    · cases h
    refine forall_mem_cons.mpr ⟨fun hsgn => ?_, ih h⟩
    have hold : ¬age.toNat ≤ limit := fun hle => hrec ⟨hle, hsgn⟩
    change num.toNat + limit < numal.toNat
    omega

theorem mem_of_dropOld (h : dropOld limit numal es = .ok kept) :
    ∀ entry ∈ es, entry ∈ kept ∨ entry.1.toNat + limit < numal.toNat := by
  induction es with
  | nil => exact forall_mem_nil _
  | cons entry rest ih =>
    obtain ⟨num, signer⟩ := entry
    obtain ⟨age, hage, h⟩ := h.of_bind
    rw [U256.sub_eq_ok] at hage
    split_ifs at h with hold
    · refine forall_mem_cons.mpr ⟨.inr ?_, ih h⟩
      change num.toNat + limit < numal.toNat
      omega
    · cases h
      exact fun entry hent => .inl hent

theorem subset_of_dropOld (h : dropOld limit numal es = .ok kept) : kept ⊆ es := by
  induction es with
  | nil =>
    cases h
    exact List.Subset.refl _
  | cons entry rest ih =>
    obtain ⟨num, signer⟩ := entry
    obtain ⟨age, -, h⟩ := h.of_bind
    split_ifs at h
    · exact subset_cons_of_subset _ (ih h)
    · cases h
      exact List.Subset.refl _

theorem signedWithin_eq_true (h : signedWithin limit signer numal es = .ok true) :
    ∃ entry ∈ es, entry.2 = signer ∧ numal.toNat ≤ entry.1.toNat + limit := by
  induction es with
  | nil => cases h
  | cons entry rest ih =>
    obtain ⟨num, recentSigner⟩ := entry
    obtain ⟨age, hage, h⟩ := h.of_bind
    rw [U256.sub_eq_ok] at hage
    split_ifs at h with hrec
    · refine ⟨_, mem_cons_self, hrec.2, ?_⟩
      change numal.toNat ≤ num.toNat + limit
      omega
    · obtain ⟨entry, hent, hsgn⟩ := ih h
      exact ⟨entry, mem_cons_of_mem _ hent, hsgn⟩

theorem exists_signedWithin (h : ∀ entry ∈ es, entry.1 ≤ numal) :
    ∃ answer, signedWithin limit signer numal es = .ok answer := by
  induction es with
  | nil => exact ⟨false, rfl⟩
  | cons entry rest ih =>
    obtain ⟨num, recentSigner⟩ := entry
    obtain ⟨hnum, hrest⟩ := forall_mem_cons.mp h
    have hage : U256.sub numal num = .ok (numal - num) := if_pos hnum
    by_cases hrec : (numal - num).toNat ≤ limit ∧ recentSigner = signer
    · exact ⟨true, Except.bind_eq_ok.mpr ⟨_, hage, if_pos hrec⟩⟩
    · obtain ⟨answer, hans⟩ := ih hrest
      exact ⟨answer, Except.bind_eq_ok.mpr ⟨_, hage, (if_neg hrec).trans hans⟩⟩

theorem exists_dropOld (h : ∀ entry ∈ es, entry.1 ≤ numal) :
    ∃ kept, dropOld limit numal es = .ok kept := by
  induction es with
  | nil => exact ⟨[], rfl⟩
  | cons entry rest ih =>
    obtain ⟨num, signer⟩ := entry
    obtain ⟨hnum, hrest⟩ := forall_mem_cons.mp h
    have hage : U256.sub numal num = .ok (numal - num) := if_pos hnum
    by_cases hold : limit < (numal - num).toNat
    · obtain ⟨kept, hkept⟩ := ih hrest
      exact ⟨kept, Except.bind_eq_ok.mpr ⟨_, hage, (if_pos hold).trans hkept⟩⟩
    · exact ⟨_, Except.bind_eq_ok.mpr ⟨_, hage, if_neg hold⟩⟩

end

/-- A later block of a signer that has not signed recently, put on record. -/
def RecordStep (past : List (U256 × Address)) (self : Clique) (block : U256 × Address)
    (self' : Clique) : Prop :=
  (∀ earlier ∈ past, earlier.1 < block.1) ∧
    self.hasSignedRecently block.2 block.1 = .ok false ∧
    self.updateRecentSigners block.1 block.2 = .ok self'

def performRecord (past : List (U256 × Address)) (self : Clique) (block : U256 × Address) :
    Option Clique :=
  if past.all (·.1 < block.1) ∧ self.hasSignedRecently block.2 block.1 = .ok false then
    (self.updateRecentSigners block.1 block.2).toOption
  else none

theorem recordStep_of_performRecord (past : List (U256 × Address)) (t : Clique)
    (block : U256 × Address) (t' : Clique) (h : performRecord past t block = some t') :
    RecordStep past t block t' := by
  rw [performRecord] at h
  split_ifs at h with hblk
  have hlat : ∀ earlier ∈ past, earlier.1 < block.1 := fun earlier hear =>
    of_decide_eq_true (all_eq_true.mp hblk.1 earlier hear)
  refine ⟨hlat, hblk.2, ?_⟩
  cases hupd : t.updateRecentSigners block.1 block.2 with
  | ok t'' =>
    rw [hupd] at h
    exact congrArg _ (Option.some.inj h)
  | error p =>
    rw [hupd] at h
    cases h

def sampleBlocks : List (U256 × Address) :=
  [(1, addressFromU256 1), (2, addressFromU256 2), (3, addressFromU256 1), (5, addressFromU256 2)]

def Remembers (limit : Nat) (past entries : List (U256 × Address)) : Prop :=
  ∀ block ∈ past, block ∈ entries ∨ ∃ later ∈ past, block.1.toNat + limit < later.1.toNat

def Spaced (limit : Nat) (past : List (U256 × Address)) : Prop :=
  past.Pairwise fun block later => block.2 = later.2 → block.1.toNat + limit < later.1.toNat

def inWindow (limit : Nat) (signer : Address) (first : Nat) (block : U256 × Address) : Bool :=
  block.2 = signer ∧ first ≤ block.1.toNat ∧ block.1.toNat < first + (limit + 1)

section
variable {past : List (U256 × Address)} {t start : Clique} {cfg : ConsensusConfig}

theorem updateRecentSigners_eq_ok (h : t.updateRecentSigners num signer = .ok t') :
    t'.signers = t.signers ∧ dropOld t.limit num
      (t.recentSigners ++ [(num, signer)]) = .ok t'.recentSigners := by
  obtain ⟨recentSigners, hdrop, h⟩ := h.of_bind
  cases h
  exact ⟨rfl, hdrop⟩

theorem RecordStep.remembers (h : RecordStep past t block t')
    (hmem : Remembers t.limit past t.recentSigners) :
    Remembers t.limit (past ++ [block]) t'.recentSigners := by
  obtain ⟨-, -, hupd⟩ := h
  have hdrop := mem_of_dropOld (updateRecentSigners_eq_ok hupd).2
  have hkept : ∀ entry ∈ t.recentSigners ++ [block], entry ∈ t'.recentSigners ∨
      ∃ later ∈ past ++ [block], entry.1.toNat + t.limit < later.1.toNat := by
    intro entry hent
    refine (hdrop entry hent).imp_right fun hold => ?_
    exact ⟨block, mem_append_right _ mem_cons_self, hold⟩
  refine forall_mem_append.mpr ⟨fun entry hent => ?_, forall_mem_singleton.mpr ?_⟩
  · rcases hmem entry hent with hent | ⟨later, hlat, hold⟩
    · exact hkept entry (mem_append_left _ hent)
    · exact .inr ⟨later, mem_append_left _ hlat, hold⟩
  · exact hkept block (mem_append_right _ mem_cons_self)

theorem RecordStep.spaced (h : RecordStep past t block t')
    (hmem : Remembers t.limit past t.recentSigners) (hspa : Spaced t.limit past) :
    Spaced t.limit (past ++ [block]) := by
  obtain ⟨hlat, hsgn, -⟩ := h
  refine pairwise_append.mpr ⟨hspa, pairwise_singleton _ _, ?_⟩
  intro earlier hear last hlast hsigner
  obtain rfl := mem_singleton.mp hlast
  rcases hmem earlier hear with hent | ⟨later, hlat', hold⟩
  · exact signedWithin_eq_false hsgn earlier hent hsigner
  · exact hold.trans (BitVec.lt_def.mp (hlat later hlat'))

theorem spaced_of_run (h : History.Run RecordStep start past t) : Spaced start.limit past := by
  have hinv : t.signers = start.signers ∧ Remembers t.limit past t.recentSigners ∧
      Spaced t.limit past := by
    refine h.induct (fun past t => t.signers = start.signers ∧
      Remembers t.limit past t.recentSigners ∧ Spaced t.limit past)
      ⟨rfl, forall_mem_nil _, List.Pairwise.nil⟩ ?_
    rintro past t block t' - ⟨hsgns, hmem, hspa⟩ hstep
    have hsgns' := (updateRecentSigners_eq_ok hstep.2.2).1
    have hlim : t'.limit = t.limit := by rw [limit, limit, hsgns']
    rw [hlim]
    exact ⟨hsgns'.trans hsgns, hstep.remembers hmem, hstep.spaced hmem hspa⟩
  have hlim : t.limit = start.limit := by rw [limit, limit, hinv.1]
  exact hlim ▸ hinv.2.2

theorem Spaced.length_inWindow_le {limit : Nat} (h : Spaced limit past) :
    (past.filter (inWindow limit signer first)).length ≤ 1 := by
  have hpair : Spaced limit (past.filter (inWindow limit signer first)) := h.filter _
  have hwin : ∀ block ∈ past.filter (inWindow limit signer first),
      inWindow limit signer first block = true := fun block hblk => (mem_filter.mp hblk).2
  generalize past.filter (inWindow limit signer first) = blocks at hpair hwin ⊢
  match blocks with
  | [] => exact Nat.zero_le 1
  | [_] => exact le_refl 1
  | block :: later :: rest =>
    obtain ⟨hsgn, hfst, -⟩ := of_decide_eq_true (hwin block mem_cons_self)
    obtain ⟨hsgn', -, hlast⟩ := of_decide_eq_true (hwin later (mem_cons_of_mem _ mem_cons_self))
    have hfar := rel_of_pairwise_cons hpair mem_cons_self (hsgn.trans hsgn'.symm)
    omega

/-- Every signer is recorded for at most one of any `n / 2 + 1` consecutive block numbers, where `n`
is the number of signers. -/
theorem one_block_per_window (h : History.Run RecordStep start past t) (signer : Address)
    (first : Nat) :
    (past.filter fun block => block.2 = signer ∧ first ≤ block.1.toNat ∧
      block.1.toNat < first + (start.signers.length / 2 + 1)).length ≤ 1 :=
  (spaced_of_run h).length_inWindow_le

theorem exists_run_sampleBlocks :
    ∃ t, History.Run RecordStep (new (sampleConfig .clique [1, 2, 3])) sampleBlocks t :=
  History.exists_of_replay (P := fun _ => True) recordStep_of_performRecord (by decide +kernel)
    fun _ hrun _ => hrun

theorem one_block_per_window_sample :
    (sampleBlocks.filter fun block => block.2 = addressFromU256 1 ∧ 2 ≤ block.1.toNat ∧
      block.1.toNat < 2 + 2).length ≤ 1 := by
  obtain ⟨t, hrun⟩ := exists_run_sampleBlocks
  exact one_block_per_window hrun (addressFromU256 1) 2

theorem recentSigners_subset (h : History.Run RecordStep (new cfg) past t) :
    t.recentSigners ⊆ past := by
  refine h.induct (fun past t => t.recentSigners ⊆ past) (List.Subset.refl _) ?_
  intro past t block t' _ hsub hstep
  have hkept := subset_of_dropOld (updateRecentSigners_eq_ok hstep.2.2).2
  refine List.Subset.trans hkept (append_subset.mpr ⟨?_, subset_append_right _ _⟩)
  exact List.Subset.trans hsub (subset_append_left _ _)

theorem record_returns (h : History.Run RecordStep (new cfg) past t)
    (hlat : ∀ earlier ∈ past, earlier.1 < num) :
    (∃ answer, t.hasSignedRecently signer num = .ok answer) ∧
      ∃ t', t.updateRecentSigners num signer = .ok t' := by
  have hents : ∀ entry ∈ t.recentSigners, entry.1 ≤ num := fun entry hent =>
    BitVec.le_of_lt (hlat entry (recentSigners_subset h hent))
  refine ⟨exists_signedWithin hents, ?_⟩
  have hpus : ∀ entry ∈ t.recentSigners ++ [(num, signer)],
      entry.1 ≤ num :=
    forall_mem_append.mpr ⟨hents, forall_mem_singleton.mpr (BitVec.le_refl _)⟩
  obtain ⟨recentSigners, hdrop⟩ := exists_dropOld hpus
  exact ⟨_, Except.bind_eq_ok.mpr ⟨recentSigners, hdrop, rfl⟩⟩

theorem ascending_of_run (h : History.Run RecordStep start past t) :
    past.Pairwise (·.1 < ·.1) ∧ t.signers = start.signers := by
  refine h.induct (fun past t => past.Pairwise (·.1 < ·.1) ∧ t.signers = start.signers)
    ⟨.nil, rfl⟩ ?_
  rintro past t block t' - ⟨hpast, hsgns⟩ ⟨hlat, -, hupd⟩
  refine ⟨pairwise_append.mpr ⟨hpast, pairwise_singleton _ _, fun earlier hear => ?_⟩,
    (updateRecentSigners_eq_ok hupd).1.trans hsgns⟩
  exact forall_mem_singleton.mpr (hlat earlier hear)

/-- The signers that have to wait are those of the blocks in the window, and the window has `n / 2`
numbers before the next one. -/
theorem length_waiting_le (h : History.Run RecordStep (new cfg) past t)
    (hdis : cfg.validators.Nodup) (hlat : ∀ earlier ∈ past, earlier.1 < num) :
    (cfg.validators.filter fun signer =>
      t.hasSignedRecently signer num = .ok true).length ≤ t.limit := by
  let recent := past.filter fun block => num.toNat ≤ block.1.toNat + t.limit
  have hnum : (recent.map (·.1.toNat)).Nodup :=
    pairwise_map.mpr (((ascending_of_run h).1.filter _).imp fun hlt =>
      ne_of_lt (BitVec.lt_def.mp hlt))
  have hwin : recent.map (·.1.toNat) ⊆ range' (num.toNat - t.limit) t.limit := by
    intro number hnumber
    obtain ⟨block, hblk, rfl⟩ := mem_map.mp hnumber
    obtain ⟨hpast, hrec⟩ := mem_filter.mp hblk
    have hrec := of_decide_eq_true hrec
    have hlt := BitVec.lt_def.mp (hlat block hpast)
    rw [mem_range'_1]
    omega
  have hwt : (cfg.validators.filter fun signer =>
      t.hasSignedRecently signer num = .ok true) ⊆ recent.map (·.2) := by
    intro signer hsgn
    have hrec := of_decide_eq_true (mem_filter.mp hsgn).2
    obtain ⟨entry, hent, rfl, hage⟩ := signedWithin_eq_true hrec
    exact mem_map_of_mem (mem_filter.mpr ⟨recentSigners_subset h hent, decide_eq_true hage⟩)
  calc _ ≤ (recent.map (·.2)).length := ((hdis.filter _).subperm hwt).length_le
    _ = (recent.map (·.1.toNat)).length := by rw [length_map, length_map]
    _ ≤ (range' (num.toNat - t.limit) t.limit).length := (hnum.subperm hwin).length_le
    _ = t.limit := length_range'

/-- Whatever blocks have been recorded, for the next number no call panics, and at least half of the
signers may sign. -/
theorem half_of_signers_may_sign (h : History.Run RecordStep (new cfg) past t)
    (hdis : cfg.validators.Nodup) (hlat : ∀ earlier ∈ past, earlier.1 < num) :
    (∀ signer, (∃ answer, t.hasSignedRecently signer num = .ok answer) ∧
      ∃ t', t.updateRecentSigners num signer = .ok t') ∧
    cfg.validators.length ≤ cfg.validators.length / 2 +
      (cfg.validators.filter fun signer =>
        t.hasSignedRecently signer num = .ok false).length := by
  refine ⟨fun _ => record_returns h hlat, ?_⟩
  have hlim : t.limit = cfg.validators.length / 2 := congrArg (·.length / 2) (ascending_of_run h).2
  have hwt := length_waiting_le h hdis hlat
  have hoth : (cfg.validators.filter fun signer =>
      !decide (t.hasSignedRecently signer num = .ok true)) =
        cfg.validators.filter fun signer =>
          t.hasSignedRecently signer num = .ok false := by
    refine filter_congr fun signer _ => ?_
    obtain ⟨answer, hans⟩ : ∃ answer, t.hasSignedRecently signer num = .ok answer :=
      (record_returns h hlat).1
    rw [hans]
    cases answer <;> rfl
  have hall := length_eq_length_filter_add (l := cfg.validators) fun signer =>
    decide (t.hasSignedRecently signer num = .ok true)
  rw [hoth] at hall
  omega

theorem half_of_signers_may_sign_sample : ∃ t : Clique,
    (∀ signer, (∃ answer, t.hasSignedRecently signer 6 = .ok answer) ∧
      ∃ t', t.updateRecentSigners 6 signer = .ok t') ∧
    3 ≤ 1 + ((sampleConfig .clique [1, 2, 3]).validators.filter fun signer =>
      t.hasSignedRecently signer 6 = .ok false).length := by
  obtain ⟨t, hrun⟩ := exists_run_sampleBlocks
  have hlat : sampleBlocks.all (·.1 < 6) = true := by decide +kernel
  exact ⟨t, half_of_signers_may_sign hrun (by decide +kernel) (by simpa using hlat)⟩

end

theorem validateBlock_eq_ok [Crypto] [Recovery] [HeaderBincode]
    {t t' : Clique} (h : validateBlock block t = .ok () t') :
    ∃ signer, getSigner block.header = .ok signer ∧ signer ∈ t.signers ∧
      t.hasSignedRecently signer block.header.number = .ok false := by
  rw [validateBlock, bind_read] at h
  obtain ⟨signer, s₁, hres, h⟩ := bind_eq_ok.mp h
  obtain ⟨hsgn, rfl⟩ := result_eq_ok.mp hres
  have hfai {e : ConsensusError} {rest : Unit → Method Clique ConsensusError Unit}
      {s s' : Clique} : (fail e >>= rest) s ≠ .ok () s' := fun h =>
    let ⟨_, _, hfail, _⟩ := bind_eq_ok.mp h
    fail_ne_ok hfail
  split at h
  · exact absurd h hfai
  · next haut =>
    obtain ⟨recently, s₂, hlift, h⟩ := bind_eq_ok.mp h
    obtain ⟨hrec, rfl⟩ := checked_eq_ok.mp hlift
    cases recently with
    | true => exact absurd h hfai
    | false => exact ⟨signer, hsgn, by simpa [isAuthorized] using haut, hrec⟩

end Clique

end EthereumRust.Consensus
