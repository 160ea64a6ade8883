import EthereumRust.HistoryExpiry.Manager
import Mathlib.Algebra.Order.BigOperators.Group.List

/-!
# Which blocks the manager expires

Every policy returns the numbers in ascending order. Those that go by age, by count or by a schedule
leave the newest `min_blocks_retained` blocks alone.
-/

namespace EthereumRust.HistoryExpiry

open Rust Method EthereumRust.Core List UInt64 Batches

theorem pairwise_numbersBelow : (numbersBelow n).Pairwise (· < ·) := by
  rw [numbersBelow, pairwise_map]
  refine List.Pairwise.imp_of_mem ?_ pairwise_lt_range
  intro a b ha hb hab
  have hbd := toNat_lt_wordBound n
  rw [mem_range] at ha hb
  rw [lt_iff_toNat_lt, toNat_ofNat_of_lt (by omega), toNat_ofNat_of_lt (by omega)]
  exact hab

theorem toNat_lt_of_mem_numbersBelow (h : k ∈ numbersBelow n) : k.toNat < n.toNat := by
  rw [numbersBelow, mem_map] at h
  obtain ⟨i, hi, rfl⟩ := h
  have hbd := toNat_lt_wordBound n
  rw [mem_range] at hi
  rw [toNat_ofNat_of_lt (by omega)]
  exact hi

theorem pairwise_destutter_sortByKey :
    ((sortByKey UInt64.toNat l).destutter (· ≠ ·)).Pairwise (· < ·) := by
  have hle : ((sortByKey UInt64.toNat l).destutter (· ≠ ·)).Pairwise
      (fun a b => a.toNat ≤ b.toNat) :=
    (pairwise_insertionSort _ l).sublist (destutter_sublist _ _)
  have hne := isChain_destutter (R := (· ≠ ·)) (sortByKey UInt64.toNat l)
  rw [← isChain_iff_pairwise, isChain_iff_getElem]
  intro i hi
  have hlt := isChain_iff_getElem.mp hle.isChain i hi
  have hne := isChain_iff_getElem.mp hne i hi
  rw [ne_eq, ← UInt64.toNat_inj] at hne
  exact lt_iff_toNat_lt.mpr (lt_of_le_of_ne hlt hne)

theorem mem_destutter_ne {l : List UInt64} : n ∈ l.destutter (· ≠ ·) ↔ n ∈ l := by
  refine ⟨fun h => (destutter_sublist _ _).subset h, fun h => ?_⟩
  cases l with
  | nil => exact h
  | cons a l =>
    rw [destutter_cons']
    induction l generalizing a with
    | nil => exact h
    | cons b l ih =>
      rw [destutter'_cons]
      split
      · rcases mem_cons.mp h with rfl | h
        · exact mem_cons_self
        · exact mem_cons_of_mem _ (ih b h)
      · rename_i hab
        obtain rfl := not_not.mp hab
        rcases mem_cons.mp h with rfl | h
        · exact mem_destutter' _ _ _
        · exact ih a h

theorem mem_destutter_sortByKey : n ∈ (sortByKey UInt64.toNat l).destutter (· ≠ ·) ↔ n ∈ l := by
  rw [mem_destutter_ne, (perm_sortByKey UInt64.toNat l).mem_iff]

namespace HistoryExpiryManager

abbrev Expendable (self : HistoryExpiryManager) (n : Nat) : Prop :=
  n + self.config.minBlocksRetained.toNat ≤ self.storage.latestBlockNumber.toNat

structure Retains (manager : HistoryExpiryManager) (blocks : List UInt64) : Prop where
  ascending : blocks.Pairwise (· < ·)
  expendable : ∀ n ∈ blocks, manager.Expendable n.toNat
  short : manager.storage.latestBlockNumber < manager.config.minBlocksRetained → blocks = []

abbrev AllExpendable (self : HistoryExpiryManager) (blocks : List UInt64) : Prop :=
  ∀ n ∈ blocks, self.Expendable n.toNat

abbrev Selects (P : List UInt64 → Prop) (m : Run (List UInt64)) (world : World) : Prop :=
  Sat m world (fun blocks _ => P blocks) (fun _ _ => True) (· ≠ .arithmetic)

def bytesBelow (self : HistoryExpiryManager) (n : Nat) : Nat :=
  ((List.range n).map fun k => ((self.storage.blockSize (.ofNat k)).getD 0).toNat).sum

structure FreesSafely (manager : HistoryExpiryManager) (bytes : Nat) : Prop where
  /-- `latest - block_num` behind the first block. -/
  latest_pos : 0 < manager.storage.latestBlockNumber.toNat
  /-- The first block is taken before the retention is looked at. -/
  first : manager.storage.latestBlockNumber < manager.config.minBlocksRetained →
    manager.storage.blockSize 0 = none
  /-- `freed_size += size`. -/
  freed : ∀ n, manager.Expendable n → manager.bytesBelow n < bytes →
    manager.bytesBelow (n + 1) < wordBound
  /-- Without retention only enough bytes stop the loop before it leaves the chain. -/
  enough : manager.config.minBlocksRetained = 0 →
    bytes ≤ manager.bytesBelow manager.storage.latestBlockNumber.toNat

structure SizeSafe (manager : HistoryExpiryManager) (maxSizeGb : UInt64) : Prop where
  /-- `max_size_gb * 1_073_741_824`. -/
  bytes : maxSizeGb.toNat * bytesPerGb.toNat < wordBound
  loop : maxSizeGb.toNat * bytesPerGb.toNat < manager.storage.totalSize.toNat →
    manager.FreesSafely (manager.storage.totalSize.toNat - maxSizeGb.toNat * bytesPerGb.toNat)

variable (self : HistoryExpiryManager)

def ClockReaches (maxAge : Duration) : Prop := ∃ t, SystemTime.sub self.now maxAge = .ok t

/-- The policies and storage contents with which the blocks to expire are right. -/
def Safe : Prop :=
  match self.config.policy with
  | .sizeBased maxSizeGb => self.SizeSafe maxSizeGb
  | .hybrid maxAge _ maxSizeGb => self.ClockReaches maxAge → self.SizeSafe maxSizeGb
  | .ageBased _ | .blockBased _ | .scheduled _ => True

theorem retains_iff (h : blocks.Pairwise (· < ·)) :
    self.Retains blocks ↔ ∀ n ∈ blocks, self.Expendable n.toNat := by
  refine ⟨Retains.expendable, fun hall => ⟨h, hall, fun hsh => ?_⟩⟩
  refine eq_nil_iff_forall_not_mem.mpr fun n hn => ?_
  have hle := hall n hn
  rw [lt_iff_toNat_lt] at hsh
  omega

theorem retains_nil : self.Retains [] := (self.retains_iff .nil).mpr (forall_mem_nil _)

variable {n : UInt64}

theorem retains_of_sublist (h : blocks.Sublist (numbersBelow n))
    (hn : self.Expendable n.toNat) : self.Retains blocks := by
  refine (self.retains_iff (pairwise_numbersBelow.sublist h)).mpr fun k hk => ?_
  have hlt := toNat_lt_of_mem_numbersBelow (h.subset hk)
  omega

def answer (k : Nat) (blockNum : UInt64) : Option Block :=
  (self.storageFailure k).elim (self.storage.blockByNumber blockNum) fun _ => none

theorem getBlockByNumber_eq (blockNum : UInt64) (w : World) :
    self.getBlockByNumber blockNum w = .ok (self.answer w.storageCalls blockNum)
      { w with storageCalls := w.storageCalls + 1 } := by
  rw [answer]
  cases h : self.storageFailure w.storageCalls with
  | none =>
    have hask : self.ask (self.storage.blockByNumber blockNum) w =
        .ok (.ok (self.storage.blockByNumber blockNum))
          { w with storageCalls := w.storageCalls + 1 } := by
      rw [ask, h]
      rfl
    exact bind_of_ok hask
  | some e =>
    have hask : self.ask (self.storage.blockByNumber blockNum) w =
        .ok (.error e) { w with storageCalls := w.storageCalls + 1 } := by
      rw [ask, h]
      rfl
    exact bind_of_ok hask

theorem agedBlocks_sublist (cutoffTime : SystemTime) (blockNums : List UInt64) (w : World) :
    ∃ blocks w', self.agedBlocks cutoffTime blockNums w = .ok blocks w' ∧
      blocks.Sublist blockNums := by
  induction blockNums generalizing w with
  | nil => exact ⟨[], w, rfl, .slnil⟩
  | cons blockNum rest ih =>
    obtain ⟨blocks, w₂, hrest, hsub⟩ := ih { w with storageCalls := w.storageCalls + 1 }
    rw [agedBlocks, bind_of_ok (self.getBlockByNumber_eq blockNum w)]
    cases self.answer w.storageCalls blockNum with
    | none => exact ⟨blocks, w₂, hrest, hsub.cons _⟩
    | some block =>
      dsimp only
      cases SystemTime.ofSecs block.header.timestamp with
      | none => exact ⟨blocks, w₂, hrest, hsub.cons _⟩
      | some blockTime =>
        dsimp only
        split
        · exact ⟨blockNum :: blocks, w₂, bind_of_ok hrest, hsub.cons_cons _⟩
        · exact ⟨[], _, rfl, nil_sublist _⟩

theorem ascending_taken (size : Option UInt64)
    (hrest : rest.Pairwise (· < ·)) (hn : ∀ k ∈ rest, n.toNat < k.toNat) :
    ((size.map fun _ => n).toList ++ rest).Pairwise (· < ·) ∧
      ∀ k ∈ (size.map fun _ => n).toList ++ rest, n.toNat ≤ k.toNat := by
  cases size with
  | none => exact ⟨hrest, fun k hk => le_of_lt (hn k hk)⟩
  | some _ =>
    refine ⟨pairwise_cons.mpr ⟨fun k hk => ?_, hrest⟩, ?_⟩
    · exact lt_iff_toNat_lt.mpr (hn k hk)
    · exact forall_mem_cons.mpr ⟨le_refl _, fun k hk => le_of_lt (hn k hk)⟩

theorem mem_taken {size : Option UInt64} (h : k ∈ (size.map fun _ => n).toList) :
    k = n ∧ size.isSome := by
  cases size with
  | none => cases h
  | some _ => exact ⟨mem_singleton.mp h, rfl⟩

theorem sat_taken_iff (hn : self.Expendable n.toNat) (size : Option UInt64)
    (m : Run (List UInt64)) (w : World) :
    Selects self.AllExpendable (do return (size.map fun _ => n).toList ++ (← m)) w ↔
      Selects self.AllExpendable m w := by
  rw [Selects, sat_bind]
  refine sat_congr fun rest _ _ => ?_
  change (∀ k ∈ _ ++ rest, self.Expendable k.toNat) ↔ _
  rw [forall_mem_append]
  exact and_iff_right fun k hk => by rwa [(mem_taken hk).1]

theorem sat_union_iff (hage : self.Retains byAge) (hcnt : self.Retains byCount)
    (hsize : ∀ blocks w', bySize w = .ok blocks w' → blocks.Pairwise (· < ·)) :
    Selects self.Retains
      (do let bySize ← bySize
          return (sortByKey UInt64.toNat (byAge ++ byCount ++ bySize)).destutter (· ≠ ·))
      w ↔ Selects self.Retains bySize w := by
  rw [Selects, sat_bind]
  refine sat_congr fun blocks w' h => ?_
  change self.Retains _ ↔ _
  rw [self.retains_iff pairwise_destutter_sortByKey, self.retains_iff (hsize blocks w' h)]
  constructor
  · intro h n hn
    exact h n (mem_destutter_sortByKey.mpr (mem_append_right _ hn))
  · intro h n hn
    rcases mem_append.mp (mem_destutter_sortByKey.mp hn) with hn | hn
    · rcases mem_append.mp hn with hn | hn
      · exact hage.expendable n hn
      · exact hcnt.expendable n hn
    · exact h n hn

variable {self}

theorem toNat_succ_of_lt (h : ¬self.storage.latestBlockNumber ≤ n) :
    (n + 1).toNat = n.toNat + 1 ∧ n.toNat < self.storage.latestBlockNumber.toNat := by
  have hlt := lt_iff_toNat_lt.mp (UInt64.not_le.mp h)
  have hbd := toNat_lt_wordBound self.storage.latestBlockNumber
  refine ⟨?_, hlt⟩
  rw [toNat_add_of_lt]
  · rfl
  · rw [toNat_one]
    omega

theorem left_lt_iff (h : ¬self.storage.latestBlockNumber ≤ n) :
    self.storage.latestBlockNumber - (n + 1) < self.config.minBlocksRetained ↔
      self.storage.latestBlockNumber.toNat < n.toNat + 1 + self.config.minBlocksRetained.toNat := by
  obtain ⟨hnext, hlt⟩ := toNat_succ_of_lt h
  rw [lt_iff_toNat_lt, UInt64.toNat_sub_of_le _ _ (le_iff_toNat_le.mpr (by omega))]
  omega

theorem identifyByAge_of_not_clockReaches (h : ¬self.ClockReaches maxAge) :
    self.identifyByAge maxAge w = .panic .assertion := by
  refine bind_checked_of_error ?_
  rw [SystemTime.sub]
  split
  · exact absurd ⟨_, if_pos ‹_›⟩ h
  · rfl

theorem bytesBelow_succ (n : UInt64) :
    self.bytesBelow (n.toNat + 1) =
      self.bytesBelow n.toNat + ((self.storage.blockSize n).getD 0).toNat := by
  rw [bytesBelow, bytesBelow, range_succ, map_append, sum_append, map_singleton,
    sum_singleton, UInt64.ofNat_toNat]

theorem bytesBelow_mono {m n : Nat} (h : m ≤ n) : self.bytesBelow m ≤ self.bytesBelow n := by
  refine List.Sublist.sum_le_sum (List.Sublist.map _ ?_) fun _ _ => Nat.zero_le _
  exact range_sublist.mpr h

section
variable (hst : ∀ k, self.storageFailure k = none)
include hst

theorem ask_eq (answer : α) :
    self.ask answer w = .ok (.ok answer) { w with storageCalls := w.storageCalls + 1 } := by
  rw [ask, hst]
  rfl

theorem askOrFail_eq (answer : α) :
    self.askOrFail answer w = .ok answer { w with storageCalls := w.storageCalls + 1 } :=
  bind_of_ok (ask_eq hst answer)

theorem getBlockSize_eq :
    self.getBlockSize n w =
      .ok (self.storage.blockSize n) { w with storageCalls := w.storageCalls + 1 } :=
  bind_of_ok (ask_eq hst _)

theorem identifyByAge_retains (hclo : self.ClockReaches maxAge) :
    ∃ blocks w', self.identifyByAge maxAge w = .ok blocks w' ∧ self.Retains blocks := by
  obtain ⟨cutoffTime, hcut⟩ := hclo
  rw [identifyByAge, bind_checked_of_ok hcut, getLatestBlockNumber, bind_of_ok (askOrFail_eq hst _)]
  split
  · rename_i hlt
    have hsub := subU64_of_le (UInt64.le_of_lt hlt)
    rw [bind_checked_of_ok hsub]
    obtain ⟨blocks, w', hblo, hsubl⟩ := self.agedBlocks_sublist cutoffTime
      (numbersBelow (self.storage.latestBlockNumber - self.config.minBlocksRetained)) _
    refine ⟨blocks, w', hblo, self.retains_of_sublist hsubl ?_⟩
    exact le_of_eq (subU64_eq_ok.mp hsub)
  · exact ⟨[], _, rfl, self.retains_nil⟩

theorem identifyByBlockCount_retains :
    ∃ blocks w', self.identifyByBlockCount blocksToKeep w = .ok blocks w' ∧
      self.Retains blocks := by
  rw [identifyByBlockCount, getLatestBlockNumber, bind_of_ok (askOrFail_eq hst _)]
  split
  · exact ⟨[], _, rfl, self.retains_nil⟩
  · rename_i hlt
    have hle : max blocksToKeep self.config.minBlocksRetained ≤ self.storage.latestBlockNumber :=
      UInt64.le_of_lt (UInt64.not_le.mp hlt)
    have hsub := subU64_of_le hle
    rw [bind_checked_of_ok hsub]
    refine ⟨_, _, rfl, self.retains_of_sublist (.refl _) ?_⟩
    have hmax : self.config.minBlocksRetained.toNat ≤
        (max blocksToKeep self.config.minBlocksRetained).toNat := by
      rw [← le_iff_toNat_le]
      change _ ≤ if blocksToKeep ≤ self.config.minBlocksRetained then _ else _
      split
      · exact UInt64.le_refl _
      · rename_i hlt
        exact UInt64.le_of_lt (UInt64.not_le.mp hlt)
    have := subU64_eq_ok.mp hsub
    omega

theorem freeingBlocks_succ (hlt : freedSize < sizeToFree) :
    self.freeingBlocks sizeToFree (fuel + 1) freedSize n w =
      if wordBound ≤ freedSize.toNat + ((self.storage.blockSize n).getD 0).toNat ∨
          self.storage.latestBlockNumber ≤ n then .panic .arithmetic
      else
        (do let taken := ((self.storage.blockSize n).map fun _ => n).toList
            if self.storage.latestBlockNumber - (n + 1) < self.config.minBlocksRetained then
              return taken
            else return taken ++ (← self.freeingBlocks sizeToFree fuel
              (freedSize + (self.storage.blockSize n).getD 0) (n + 1)) : Run (List UInt64))
          { w with storageCalls := w.storageCalls + 1 + 1 } := by
  rw [freeingBlocks, if_pos hlt, bind_of_ok (getBlockSize_eq hst)]
  rcases lt_or_ge (freedSize.toNat + ((self.storage.blockSize n).getD 0).toNat) wordBound with
    hfre | hfre
  · rw [bind_checked_of_ok (addU64_of_lt hfre)]
    rcases lt_or_ge (n.toNat + (1 : UInt64).toNat) wordBound with hnext | hnext
    · rw [bind_checked_of_ok (addU64_of_lt hnext), getLatestBlockNumber,
        bind_of_ok (askOrFail_eq hst _)]
      have hn := toNat_add_of_lt hnext
      by_cases hle : self.storage.latestBlockNumber ≤ n
      · rw [if_pos (.inr hle)]
        refine bind_checked_of_error (subU64_of_lt ?_)
        rw [lt_iff_toNat_lt, hn]
        exact Nat.lt_succ_of_le (le_iff_toNat_le.mp hle)
      · rw [if_neg (not_or.mpr ⟨not_le.mpr hfre, hle⟩)]
        refine bind_checked_of_ok (subU64_of_le ?_)
        rw [le_iff_toNat_le, hn]
        exact lt_iff_toNat_lt.mp (UInt64.not_le.mp hle)
    · -- the last number of all: the latest block cannot lie behind it
      have hle : self.storage.latestBlockNumber ≤ n := by
        have := toNat_lt_wordBound self.storage.latestBlockNumber
        rw [le_iff_toNat_le]
        rw [toNat_one] at hnext
        omega
      rw [if_pos (.inr hle)]
      exact bind_checked_of_error (addU64_of_le hnext)
  · rw [if_pos (.inl hfre)]
    exact bind_checked_of_error (addU64_of_le hfre)

theorem freeingBlocks_ascending {w w' : World}
    (h : self.freeingBlocks sizeToFree fuel freedSize n w = .ok blocks w') :
    blocks.Pairwise (· < ·) ∧ ∀ k ∈ blocks, n.toNat ≤ k.toNat := by
  induction fuel generalizing freedSize n w w' blocks with
  | zero =>
    cases h
    exact ⟨.nil, forall_mem_nil _⟩
  | succ fuel ih =>
    by_cases hlt : freedSize < sizeToFree
    · rw [freeingBlocks_succ hst hlt] at h
      split at h
      · cases h
      · rename_i hn
        obtain ⟨hsucc, -⟩ := toNat_succ_of_lt (not_or.mp hn).2
        split at h
        · obtain ⟨rfl, -⟩ := pure_eq_ok.mp h
          have := ascending_taken (n := n) (self.storage.blockSize n) .nil (forall_mem_nil _)
          rwa [append_nil] at this
        · obtain ⟨rest, _, hrest, h⟩ := bind_eq_ok.mp h
          obtain ⟨rfl, -⟩ := pure_eq_ok.mp h
          obtain ⟨hpai, hle⟩ := ih hrest
          refine ascending_taken _ hpai fun k hk => ?_
          have := hle k hk
          omega
    · rw [freeingBlocks, if_neg hlt] at h
      cases h
      exact ⟨.nil, forall_mem_nil _⟩

/-- The loop selects only blocks that may go: no sum overflows, and there is enough to free. -/
theorem sat_freeingBlocks_iff (w : World) (hfre : freedSize.toNat = self.bytesBelow n.toNat)
    (hn : self.Expendable n.toNat) (hfuel : self.storage.latestBlockNumber.toNat < n.toNat + fuel) :
    Selects self.AllExpendable (self.freeingBlocks sizeToFree fuel freedSize n) w ↔
      (∀ k, n.toNat ≤ k → self.Expendable k → self.bytesBelow k < sizeToFree.toNat →
        self.bytesBelow (k + 1) < wordBound) ∧
      (self.config.minBlocksRetained = 0 →
        sizeToFree.toNat ≤ self.bytesBelow self.storage.latestBlockNumber.toNat) := by
  induction fuel generalizing freedSize n w with
  | zero => omega
  | succ fuel ih =>
    by_cases hlt : freedSize < sizeToFree
    · have hlt' := UInt64.lt_iff_toNat_lt.mp hlt
      have hsucc := self.bytesBelow_succ n
      rw [Selects, Sat, freeingBlocks_succ hst hlt]
      split_ifs with hbad hstop
      · -- an overflow of the freed bytes, or the latest block reached with bytes left to free
        refine iff_of_false (fun h => h rfl) ?_
        rintro ⟨hbs, heno⟩
        rcases hbad with hbad | hbad
        · have := hbs n.toNat (le_refl _) hn (by omega)
          omega
        · rw [le_iff_toNat_le] at hbad
          have hn' : n.toNat = self.storage.latestBlockNumber.toNat := by omega
          have := heno (UInt64.toNat_inj.mp (by rw [UInt64.toNat_zero]; omega))
          rw [← hn'] at this
          omega
      · -- the last block that may be taken
        rw [not_or] at hbad
        rw [left_lt_iff hbad.2] at hstop
        refine iff_of_true (fun k hk => ?_) ⟨fun k hk hle _ => ?_, fun hzero => ?_⟩
        · rwa [(mem_taken hk).1]
        · obtain rfl : k = n.toNat := by omega
          omega
        · have hlat := (toNat_succ_of_lt hbad.2).2
          rw [hzero, UInt64.toNat_zero] at hstop
          omega
      · rw [not_or, not_le] at hbad
        rw [left_lt_iff hbad.2] at hstop
        obtain ⟨hnext, -⟩ := toNat_succ_of_lt hbad.2
        have hfre' : (freedSize + (self.storage.blockSize n).getD 0).toNat =
            self.bytesBelow (n + 1).toNat := by
          rw [toNat_add_of_lt hbad.1, hnext, hsucc, hfre]
        have hloop := ih { w with storageCalls := w.storageCalls + 1 + 1 } hfre'
          (by omega) (by omega)
        refine (self.sat_taken_iff hn _ _ _).trans ?_
        rw [hloop, hnext]
        refine and_congr_left fun _ => ⟨fun h k hk hle hbs => ?_, fun h k hk => h k (by omega)⟩
        rcases eq_or_lt_of_le hk with rfl | hk
        · omega
        · exact h k hk hle hbs
    · have hge := le_iff_toNat_le.mp (UInt64.not_lt.mp hlt)
      rw [freeingBlocks, if_neg hlt]
      refine iff_of_true (forall_mem_nil _) ⟨?_, ?_⟩
      · intro k hk _ hbs
        have := self.bytesBelow_mono hk
        omega
      · intro _
        have := self.bytesBelow_mono (show n.toNat ≤ self.storage.latestBlockNumber.toNat by omega)
        omega

theorem sat_freeingBlocks_short (hpos : 0 < sizeToFree)
    (hsh : self.storage.latestBlockNumber < self.config.minBlocksRetained) :
    Selects self.AllExpendable (self.freeingBlocks sizeToFree (fuel + 1) 0 0) w ↔
      0 < self.storage.latestBlockNumber.toNat ∧ self.storage.blockSize 0 = none := by
  rw [UInt64.lt_iff_toNat_lt] at hsh
  rw [Selects, Sat, freeingBlocks_succ hst hpos]
  split_ifs with hbad hstop
  · refine iff_of_false (fun h => h rfl) fun h => ?_
    rcases hbad with hbad | hbad
    · have := toNat_lt_wordBound ((self.storage.blockSize 0).getD 0)
      rw [UInt64.toNat_zero] at hbad
      omega
    · rw [le_iff_toNat_le, UInt64.toNat_zero] at hbad
      omega
  · rw [not_or] at hbad
    have hlat := (toNat_succ_of_lt hbad.2).2
    rw [UInt64.toNat_zero] at hlat
    rw [and_iff_right hlat]
    cases self.storage.blockSize 0 with
    | none => exact iff_of_true (forall_mem_nil _) rfl
    | some size =>
      refine iff_of_false (fun h => ?_) (Option.some_ne_none size)
      have := h 0 (mem_singleton.mpr rfl)
      omega
  · rw [not_or] at hbad
    rw [left_lt_iff hbad.2] at hstop
    omega

theorem sat_freeingBlocks_zero_iff (hpos : 0 < sizeToFree) :
    Selects self.Retains
        (self.freeingBlocks sizeToFree (self.storage.latestBlockNumber.toNat + 1) 0 0) w ↔
      self.FreesSafely sizeToFree.toNat := by
  refine Iff.trans (b := Selects self.AllExpendable _ w) (sat_congr fun blocks _ h =>
    self.retains_iff (freeingBlocks_ascending hst h).1) ?_
  rcases UInt64.lt_or_le self.storage.latestBlockNumber self.config.minBlocksRetained with hlt | hle
  · rw [sat_freeingBlocks_short hst hpos hlt]
    rw [lt_iff_toNat_lt] at hlt
    constructor
    · rintro ⟨hlat, hfst⟩
      refine ⟨hlat, fun _ => hfst, fun n hn => by omega, fun hzero => ?_⟩
      rw [hzero, UInt64.toNat_zero] at hlt
      omega
    · intro h
      exact ⟨h.latest_pos, h.first (lt_iff_toNat_lt.mpr hlt)⟩
  · rw [UInt64.lt_iff_toNat_lt] at hpos
    have hle' := le_iff_toNat_le.mp hle
    rw [sat_freeingBlocks_iff hst w (by rfl) (by rw [UInt64.toNat_zero]; omega)
      (by rw [UInt64.toNat_zero]; omega)]
    constructor
    · rintro ⟨hbs, heno⟩
      refine ⟨?_, fun hlt => absurd hle (UInt64.not_le.mpr hlt), fun n => hbs n ?_, heno⟩
      · refine Nat.pos_of_ne_zero fun hzero => ?_
        have := heno (UInt64.toNat_inj.mp (by rw [UInt64.toNat_zero]; omega))
        rw [hzero] at this
        exact not_le.mpr hpos this
      · exact Nat.zero_le n
    · exact fun h => ⟨fun k _ => h.freed k, h.enough⟩

theorem sat_identifyOverSize_iff (maxSizeBytes : UInt64) (w : World) :
    Selects self.Retains (self.identifyOverSize maxSizeBytes) w ↔
      (maxSizeBytes.toNat < self.storage.totalSize.toNat →
        self.FreesSafely (self.storage.totalSize.toNat - maxSizeBytes.toNat)) := by
  rw [Selects, Sat, identifyOverSize, getTotalSize, bind_of_ok (askOrFail_eq hst _)]
  by_cases hle : self.storage.totalSize ≤ maxSizeBytes
  · rw [if_pos hle]
    refine iff_of_true self.retains_nil fun hlt => ?_
    exact absurd (le_iff_toNat_le.mp hle) (not_le.mpr hlt)
  · rw [if_neg hle]
    have hlt := lt_iff_toNat_lt.mp (UInt64.not_le.mp hle)
    have hsub := subU64_of_le (UInt64.le_of_lt (UInt64.not_le.mp hle))
    have hval := Nat.eq_sub_of_add_eq (subU64_eq_ok.mp hsub)
    rw [bind_checked_of_ok hsub]
    refine (sat_freeingBlocks_zero_iff hst ?_).trans ?_
    · rw [lt_iff_toNat_lt, UInt64.toNat_zero]
      omega
    · rw [hval]
      exact ⟨fun h _ => h, fun h => h hlt⟩

theorem sat_mulU64_iff :
    Selects self.Retains (do self.identifyOverSize (← mulU64 maxSizeGb gb)) w ↔
      maxSizeGb.toNat * gb.toNat < wordBound ∧
        (maxSizeGb.toNat * gb.toNat < self.storage.totalSize.toNat →
          self.FreesSafely (self.storage.totalSize.toNat - maxSizeGb.toNat * gb.toNat)) := by
  rcases lt_or_ge (maxSizeGb.toNat * gb.toNat) wordBound with hbs | hbs
  · have hover := sat_identifyOverSize_iff hst (maxSizeGb * gb) w
    rw [toNat_mul_of_lt hbs] at hover
    rw [and_iff_right hbs, Selects, Sat, bind_checked_of_ok (mulU64_of_lt hbs)]
    exact hover
  · rw [Selects, Sat, bind_checked_of_error (mulU64_of_le hbs)]
    exact iff_of_false (fun h => h rfl) fun h => not_lt.mpr hbs h.1

theorem sat_identifyBySize_iff :
    Selects self.Retains (self.identifyBySize maxSizeGb) w ↔ self.SizeSafe maxSizeGb :=
  (sat_mulU64_iff hst).trans ⟨fun h => ⟨h.1, h.2⟩, fun h => ⟨h.bytes, h.loop⟩⟩

theorem identifyBySize_ascending
    (h : self.identifyBySize maxSizeGb w = .ok blocks w') : blocks.Pairwise (· < ·) := by
  rw [identifyBySize, bind_eq_ok] at h
  obtain ⟨maxSizeBytes, _, -, h⟩ := h
  rw [identifyOverSize, bind_eq_ok] at h
  obtain ⟨currentSize, w₁, -, h⟩ := h
  split at h
  · cases h
    exact .nil
  · obtain ⟨sizeToFree, _, -, h⟩ := bind_eq_ok.mp h
    exact (freeingBlocks_ascending hst h).1

theorem sat_identifyByAge : Selects self.Retains (self.identifyByAge maxAge) w := by
  rw [Selects, Sat]
  by_cases hclo : self.ClockReaches maxAge
  · obtain ⟨blocks, w', hage, hret⟩ := identifyByAge_retains hst hclo
    rw [hage]
    exact hret
  · rw [identifyByAge_of_not_clockReaches hclo]
    intro h
    cases h

theorem sat_identifyByBlockCount :
    Selects self.Retains (self.identifyByBlockCount blocksToKeep) w := by
  obtain ⟨blocks, w', hcnt, hret⟩ := identifyByBlockCount_retains hst
  rw [Selects, Sat, hcnt]
  exact hret

theorem sat_identifyHybrid_iff :
    Selects self.Retains (self.identifyHybrid maxAge maxBlocks maxSizeGb) w ↔
      (self.ClockReaches maxAge → self.SizeSafe maxSizeGb) := by
  rw [Selects, identifyHybrid]
  by_cases hclo : self.ClockReaches maxAge
  · obtain ⟨byAge, w₁, hage, hreta⟩ := identifyByAge_retains hst hclo
    obtain ⟨byCount, w₂, hcnt, hret⟩ := identifyByBlockCount_retains hst
    rw [sat_bind_of_ok hage, sat_bind_of_ok hcnt, imp_iff_right hclo, ← sat_identifyBySize_iff hst]
    apply self.sat_union_iff hreta hret
    exact fun bySize _ hsize => identifyBySize_ascending hst hsize
  · refine iff_of_true ?_ (absurd · hclo)
    rw [Sat, bind_of_panic (identifyByAge_of_not_clockReaches hclo)]
    intro h
    cases h

theorem sat_identifyBySchedule :
    Selects self.Retains (self.identifyBySchedule cronExpression) w := by
  rw [identifyBySchedule]
  split
  · trivial
  · split
    · exact sat_identifyByAge hst
    · exact self.retains_nil
  · exact self.retains_nil

/-- The blocks to expire ascend, leave the newest blocks alone and are computed in range, whatever
the policies that go by age, by count or by a schedule find; with the size in a policy, this holds
in exactly the cases of `SizeSafe`. -/
theorem retains_identifyBlocksToExpire_iff (w : World) :
    Sat self.identifyBlocksToExpire w (fun blocks _ => self.Retains blocks) (fun _ _ => True)
      (· ≠ .arithmetic) ↔ self.Safe := by
  rw [identifyBlocksToExpire, Safe]
  cases self.config.policy with
  | ageBased maxAge => exact iff_of_true (sat_identifyByAge hst) trivial
  | blockBased blocksToKeep =>
    exact iff_of_true (sat_identifyByBlockCount hst) trivial
  | sizeBased maxSizeGb => exact sat_identifyBySize_iff hst
  | hybrid maxAge maxBlocks maxSizeGb =>
    exact sat_identifyHybrid_iff hst
  | scheduled cronExpression =>
    exact iff_of_true (sat_identifyBySchedule hst) trivial

end

end HistoryExpiryManager

namespace Sample

def start : World where
  storageCalls := 0
  archiveCalls := 0
  events := []
  expiryState := ⟨0, 0, 0⟩
  metrics := ⟨0, 0, 0, 0⟩

/-- Blocks up to `latest`, one byte each, of which the newest ten are retained. Nothing fails. -/
def manager (latest : UInt64) (policy : ExpiryPolicy) : HistoryExpiryManager where
  config := { ExpiryConfig.default with minBlocksRetained := 10, policy }
  storage := {
    latestBlockNumber := latest
    blockByNumber := fun n => if n ≤ latest then some (.new .new) else none
    totalSize := latest + 1
    blockSize := fun n => if n ≤ latest then some 1 else none }
  storageFailure _ := none
  archivalBackend _ _ := .ok "blocks"
  pruningEngine blocks := .ok ⟨.ofNat blocks.length, .ofNat blocks.length⟩
  now := 0
  upcoming _ := .ok none

theorem retains_by_count :
    Sat (manager 20 (.blockBased 3)).identifyBlocksToExpire start
      (fun blocks _ => (manager 20 (.blockBased 3)).Retains blocks) (fun _ _ => True)
      (· ≠ .arithmetic) :=
  (HistoryExpiryManager.retains_identifyBlocksToExpire_iff (fun _ => rfl) start).mpr trivial

/-- With six blocks, all of which are retained, the first one is picked for its size. -/
theorem not_retains_by_size :
    (manager 5 (.sizeBased 0)).identifyBlocksToExpire start =
        .ok [0] { start with storageCalls := 3 } ∧
      ¬(manager 5 (.sizeBased 0)).Retains [0] := by
  refine ⟨by rfl, fun h => ?_⟩
  exact absurd (h.expendable 0 mem_cons_self) (by decide)

end Sample

end EthereumRust.HistoryExpiry
