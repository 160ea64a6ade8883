import EthereumRust.HistoryExpiry.Retention

/-!
# What is archived before it is pruned

`archive_blocks` goes on when a block cannot be read and when the backend returns `Err`, and
`perform_expiry` prunes all numbers behind it.
-/

namespace EthereumRust.HistoryExpiry

open Rust Method EthereumRust.Core List

namespace HistoryExpiryManager
variable (self : HistoryExpiryManager)

def readFrom : Nat → List UInt64 → List Block
  | _, [] => []
  | k, blockNum :: rest => (self.answer k blockNum).toList ++ readFrom (k + 1) rest

theorem readBlocks_eq (chunk : List UInt64) (w : World) :
    self.readBlocks chunk w = .ok (self.readFrom w.storageCalls chunk)
      { w with storageCalls := w.storageCalls + chunk.length } := by
  induction chunk generalizing w with
  | nil => rfl
  | cons blockNum rest ih =>
    rw [readBlocks, bind_of_ok (self.getBlockByNumber_eq blockNum w), readFrom]
    have hrest := ih { w with storageCalls := w.storageCalls + 1 }
    rw [add_assoc, add_comm 1 rest.length] at hrest
    cases self.answer w.storageCalls blockNum with
    | none => exact hrest
    | some block => exact bind_of_ok hrest

def archiveEvent (k : Nat) (blocks : List Block) : Event :=
  match self.archivalBackend k blocks with
  | .ok _ => .archived blocks
  | .error _ => .archivalFailed blocks

theorem archiveEvent_eq_archived : self.archiveEvent k blocks = .archived blocks' ↔
      blocks' = blocks ∧ (self.archivalBackend k blocks).isOk := by
  rw [archiveEvent]
  cases self.archivalBackend k blocks with
  | ok id => simp [Except.isOk, Except.toBool, eq_comm]
  | error e => simp [Except.isOk, Except.toBool]

def chunkEvents : Nat → Nat → List (List UInt64) → List Event
  | _, _, [] => []
  | call, k, chunk :: chunks =>
    self.archiveEvent call (self.readFrom k chunk) ::
      chunkEvents (call + 1) (k + chunk.length) chunks

theorem archiveChunk_eq (chunk : List UInt64) (blocks : List Block) (w : World) :
    ∃ w', self.archiveChunk chunk blocks w = .ok () w' ∧
      w'.events = w.events ++ [self.archiveEvent w.archiveCalls blocks] ∧
      w'.archiveCalls = w.archiveCalls + 1 ∧ w'.storageCalls = w.storageCalls := by
  refine ⟨_, rfl, ?_⟩
  rw [archiveEvent]
  cases h : self.archivalBackend w.archiveCalls blocks with
  | ok id => simp [h]
  | error e => simp [h]

theorem archiveChunks_eq (chunks : List (List UInt64)) (w : World) :
    ∃ w', self.archiveChunks chunks w = .ok () w' ∧
      w'.events =
        w.events ++ self.chunkEvents w.archiveCalls w.storageCalls chunks := by
  induction chunks generalizing w with
  | nil => exact ⟨w, rfl, (append_nil _).symm⟩
  | cons chunk chunks ih =>
    rw [archiveChunks, bind_of_ok (self.readBlocks_eq chunk w)]
    obtain ⟨w₁, har, heve, hcal, hst⟩ :=
      self.archiveChunk_eq chunk (self.readFrom w.storageCalls chunk)
        { w with storageCalls := w.storageCalls + chunk.length }
    rw [bind_of_ok har]
    obtain ⟨w', hchu, heve'⟩ := ih w₁
    refine ⟨w', hchu, ?_⟩
    rw [heve', heve, hcal, hst, append_assoc]
    rfl

def chunkBlocks (k : Nat) (blockNumbers : List UInt64) (c : Nat) : List Block :=
  self.readFrom (k + c * 100) (Blocks.chunk blockNumbers 100 c)

theorem chunkEvents_range' (call k : Nat) (nums : List UInt64) (c m : Nat)
    (h : (c + m) * 100 < nums.length + 100) :
    self.chunkEvents (call + c) (k + c * 100)
        ((range' c m).map (Blocks.chunk nums 100)) =
      (range' c m).map fun c =>
        self.archiveEvent (call + c) (self.chunkBlocks k nums c) := by
  induction m generalizing c with
  | zero => rfl
  | succ m ih =>
    rw [range'_succ, map_cons, chunkEvents]
    congr 1
    cases m with
    | zero => rfl
    | succ m =>
      have hnext : k + c * 100 + 100 = k + (c + 1) * 100 := by omega
      have hchk : (Blocks.chunk nums 100 c).length = 100 := by
        rw [Blocks.chunk, length_take, length_drop]
        omega
      rw [← add_assoc c, add_right_comm] at h
      rw [hchk, hnext]
      exact ih (c + 1) h

theorem chunkEvents_chunks :
    self.chunkEvents call k (Blocks.chunks 100 nums) =
      (range (Blocks.chunks 100 nums).length).map fun c =>
        self.archiveEvent (call + c) (self.chunkBlocks k nums c) := by
  have h := self.chunkEvents_range' call k nums 0
    ((nums.length + 100 - 1) / 100) (by omega)
  rw [← range_eq_range'] at h
  rw [Blocks.chunks, length_map, length_range]
  exact h

theorem mem_chunkEvents_iff :
    .archived blocks ∈ self.chunkEvents call k (Blocks.chunks 100 nums) ↔
      ∃ c < (Blocks.chunks 100 nums).length,
        blocks = self.chunkBlocks k nums c ∧
          (self.archivalBackend (call + c) (self.chunkBlocks k nums c)).isOk := by
  simp only [chunkEvents_chunks, mem_map, mem_range, archiveEvent_eq_archived]

section
variable {inv : World → Prop} (hinv : ∀ w k, inv w → inv { w with storageCalls := k })
include hinv

theorem keeps_ask (a : α) : Keeps inv (self.ask a) := fun w h => hinv w _ h

theorem keeps_askOrFail (a : α) : Keeps inv (self.askOrFail a) := by
  refine (self.keeps_ask hinv a).bind fun answer => ?_
  cases answer with
  | ok a => exact .pure a
  | error e => exact .fail _

theorem keeps_getBlockByNumber (n : UInt64) : Keeps inv (self.getBlockByNumber n) := by
  refine (self.keeps_ask hinv _).bind fun answer => ?_
  cases answer with
  | ok block => exact .pure block
  | error e => exact .pure none

theorem keeps_getBlockSize (n : UInt64) : Keeps inv (self.getBlockSize n) := by
  refine (self.keeps_ask hinv _).bind fun answer => ?_
  cases answer with
  | ok size => exact .pure size
  | error e => exact .pure none

theorem keeps_agedBlocks (cutoffTime : SystemTime) (blockNums : List UInt64) :
    Keeps inv (self.agedBlocks cutoffTime blockNums) := by
  induction blockNums with
  | nil => exact .pure []
  | cons blockNum rest ih =>
    refine (self.keeps_getBlockByNumber hinv blockNum).bind fun block => ?_
    cases block with
    | none => exact ih
    | some block =>
      dsimp only
      split
      · exact ih
      · split
        · exact ih.bind fun _ => .pure _
        · exact .pure []

theorem keeps_identifyByAge (maxAge : Duration) : Keeps inv (self.identifyByAge maxAge) := by
  refine .bind_checked fun cutoffTime _ => ?_
  refine (self.keeps_askOrFail hinv _).bind fun latestBlock => ?_
  split
  · exact .bind_checked fun _ _ => self.keeps_agedBlocks hinv _ _
  · exact .pure []

theorem keeps_identifyByBlockCount (blocksToKeep : UInt64) :
    Keeps inv (self.identifyByBlockCount blocksToKeep) := by
  refine (self.keeps_askOrFail hinv _).bind fun latestBlock => ?_
  dsimp only
  split
  · exact .pure []
  · exact .bind_checked fun _ _ => .pure _

theorem keeps_freeingBlocks (sizeToFree : UInt64) (fuel : Nat) (freedSize n : UInt64) :
    Keeps inv (self.freeingBlocks sizeToFree fuel freedSize n) := by
  induction fuel generalizing freedSize n with
  | zero => exact .pure []
  | succ fuel ih =>
    rw [freeingBlocks]
    split
    · refine (self.keeps_getBlockSize hinv n).bind fun size => ?_
      refine .bind_checked fun freedSize' _ => .bind_checked fun next _ => ?_
      refine (self.keeps_askOrFail hinv _).bind fun latest => ?_
      refine .bind_checked fun left _ => ?_
      split
      · exact .pure _
      · exact (ih _ _).bind fun _ => .pure _
    · exact .pure []

theorem keeps_identifyBySize (maxSizeGb : UInt64) : Keeps inv (self.identifyBySize maxSizeGb) := by
  refine .bind_checked fun maxSizeBytes _ => ?_
  refine (self.keeps_askOrFail hinv _).bind fun currentSize => ?_
  split
  · exact .pure []
  · exact .bind_checked fun _ _ => self.keeps_freeingBlocks hinv _ _ _ _

theorem keeps_identifyBlocksToExpire : Keeps inv self.identifyBlocksToExpire := by
  rw [identifyBlocksToExpire]
  cases self.config.policy with
  | ageBased maxAge => exact self.keeps_identifyByAge hinv maxAge
  | blockBased blocksToKeep => exact self.keeps_identifyByBlockCount hinv blocksToKeep
  | sizeBased maxSizeGb => exact self.keeps_identifyBySize hinv maxSizeGb
  | hybrid maxAge maxBlocks maxSizeGb =>
    refine (self.keeps_identifyByAge hinv maxAge).bind fun byAge => ?_
    refine (self.keeps_identifyByBlockCount hinv maxBlocks).bind fun byCount => ?_
    exact (self.keeps_identifyBySize hinv maxSizeGb).bind fun _ => .pure _
  | scheduled cronExpression =>
    dsimp only
    rw [identifyBySchedule]
    split
    · exact .fail _
    · split
      · exact self.keeps_identifyByAge hinv _
      · exact .pure []
    · exact .pure []

end

theorem distributeToPortal_eq (nums : List UInt64) (w : World) :
    ∃ w', ∃ blocks : List Block,
      self.distributeToPortal nums w = .ok () w' ∧
      w'.events = w.events ++ blocks.map Event.distributed := by
  induction nums generalizing w with
  | nil => exact ⟨w, [], rfl, (append_nil _).symm⟩
  | cons blockNum rest ih =>
    rw [distributeToPortal, bind_of_ok (self.getBlockByNumber_eq blockNum w)]
    cases self.answer w.storageCalls blockNum with
    | none => exact ih _
    | some block =>
      obtain ⟨w', blocks, hrest, heve⟩ := ih _
      refine ⟨w', block :: blocks, hrest, ?_⟩
      rw [heve, append_assoc]
      rfl

/-- Each stored block among the numbers is read for a chunk that the backend archives, if the chunks
are archived from the calls on that `world` has counted. -/
def Covered (world : World) (blockNumbers : List UInt64) : Prop :=
  ∀ n ∈ blockNumbers, ∀ block, self.storage.blockByNumber n = some block →
    ∃ c < (Blocks.chunks 100 blockNumbers).length,
      block ∈ self.chunkBlocks world.storageCalls blockNumbers c ∧
        (self.archivalBackend (world.archiveCalls + c)
          (self.chunkBlocks world.storageCalls blockNumbers c)).isOk

end HistoryExpiryManager

/-- Every block that storage holds is archived before it is pruned. -/
def ArchivedFirst (storage : Storage) (events : List Event) : Prop :=
  ∀ before blockNumbers after, events = before ++ .pruning blockNumbers :: after →
    ∀ n ∈ blockNumbers, ∀ block, storage.blockByNumber n = some block →
      ∃ blocks, .archived blocks ∈ before ∧ block ∈ blocks

theorem archivedFirst_nil : ArchivedFirst sto [] := by
  intro before nums after h
  cases before <;> cases h

theorem archivedFirst_concat_iff {events : List Event} (h : ∀ numbers, .pruning numbers ∉ events) :
    ArchivedFirst sto (events ++ [.pruning nums]) ↔
      ∀ n ∈ nums, ∀ block, sto.blockByNumber n = some block →
        ∃ blocks, .archived blocks ∈ events ∧ block ∈ blocks := by
  refine ⟨fun hall => hall events nums [] rfl, fun hall before numbers after heq => ?_⟩
  rcases eq_nil_or_concat after with rfl | ⟨after, last, rfl⟩
  · obtain ⟨rfl, hlast⟩ := append_inj' heq rfl
    cases hlast
    exact hall
  · rw [concat_eq_append, ← cons_append, ← append_assoc] at heq
    obtain ⟨rfl, -⟩ := append_inj' heq rfl
    exact absurd (mem_append_right _ mem_cons_self) (h numbers)

namespace HistoryExpiryManager
variable {self : HistoryExpiryManager}

theorem pruning_notMem_chunkEvents : .pruning nums ∉ self.chunkEvents call k chunks := by
  induction chunks generalizing call k with
  | nil => exact not_mem_nil
  | cons chunk chunks ih =>
    rw [chunkEvents, mem_cons, not_or]
    refine ⟨?_, ih⟩
    rw [archiveEvent]
    split
    · intro h
      cases h
    · intro h
      cases h

variable {w : World}

theorem sat_pruneBlocks_iff (h : ∀ numbers, .pruning numbers ∉ w.events) :
    Sat (do return some (nums, ← self.pruneBlocks nums) :
        Run (Option (List UInt64 × PruneResult))) w
      (fun _ w' => ArchivedFirst self.storage w'.events)
      (fun _ w' => ArchivedFirst self.storage w'.events) (fun _ => True) ↔
      ∀ n ∈ nums, ∀ block, self.storage.blockByNumber n = some block →
        ∃ blocks, .archived blocks ∈ w.events ∧ block ∈ blocks := by
  rw [pruneBlocks, ← archivedFirst_concat_iff h]
  cases self.pruningEngine nums with
  | ok pruned => exact Iff.rfl
  | error e => exact Iff.rfl

theorem covered_iff {distributed : List Block}
    (h : events = self.chunkEvents w.archiveCalls w.storageCalls
      (Blocks.chunks 100 nums) ++ distributed.map Event.distributed) :
    (∀ n ∈ nums, ∀ block, self.storage.blockByNumber n = some block →
      ∃ blocks, .archived blocks ∈ events ∧ block ∈ blocks) ↔ self.Covered w nums := by
  refine forall₂_congr fun n _ => forall₂_congr fun block _ => ?_
  have hmem (blocks : List Block) : .archived blocks ∈ events ↔ .archived blocks ∈
      self.chunkEvents w.archiveCalls w.storageCalls (Blocks.chunks 100 nums) := by
    rw [h]
    simp
  constructor
  · rintro ⟨blocks, hblo, hblk⟩
    obtain ⟨c, hc, rfl, hok⟩ := self.mem_chunkEvents_iff.mp ((hmem blocks).mp hblo)
    exact ⟨c, hc, hblk, hok⟩
  · rintro ⟨c, hc, hblk, hok⟩
    exact ⟨_, (hmem _).mpr (self.mem_chunkEvents_iff.mpr ⟨c, hc, rfl, hok⟩), hblk⟩

theorem sat_pruneBlocks_covered {distributed : List Block}
    (h : w'.events = self.chunkEvents w.archiveCalls w.storageCalls
      (Blocks.chunks 100 nums) ++ distributed.map Event.distributed) :
    Sat (do return some (nums, ← self.pruneBlocks nums) :
        Run (Option (List UInt64 × PruneResult))) w'
      (fun _ w' => ArchivedFirst self.storage w'.events)
      (fun _ w' => ArchivedFirst self.storage w'.events) (fun _ => True) ↔
      self.Covered w nums := by
  rw [← covered_iff h]
  apply sat_pruneBlocks_iff
  intro numbers hmem
  rw [h, mem_append] at hmem
  rcases hmem with hmem | hmem
  · exact pruning_notMem_chunkEvents hmem
  · simp at hmem

theorem archivedFirst_expireBlocks_iff (har : self.config.archiveBeforeExpiry = true)
    (w : World) (heve : w.events = []) :
    Sat self.expireBlocks w (fun _ w' => ArchivedFirst self.storage w'.events)
      (fun _ w' => ArchivedFirst self.storage w'.events) (fun _ => True) ↔
      ∀ nums w₁, self.identifyBlocksToExpire w = .ok nums w₁ →
        self.Covered w₁ nums := by
  have hkee : Sat self.identifyBlocksToExpire w (fun _ w => w.events = [])
      (fun _ w => w.events = []) (fun _ => True) :=
    self.keeps_identifyBlocksToExpire (fun _ _ h => h) w heve
  rw [expireBlocks]
  cases hid : self.identifyBlocksToExpire w with
  | panic p =>
    rw [Sat, bind_of_panic hid]
    exact iff_of_true trivial fun _ _ h => by cases h
  | err e w₁ =>
    rw [Sat, bind_of_err hid]
    refine iff_of_true ?_ fun _ _ h => by cases h
    dsimp only
    rw [hkee.of_err hid]
    exact archivedFirst_nil
  | ok nums w₁ =>
    have hwor₁ := hkee.of_ok hid
    have hall : (∀ numbers w', self.identifyBlocksToExpire w = .ok numbers w' →
        self.Covered w' numbers) ↔ self.Covered w₁ nums := by
      refine ⟨fun h => h _ _ hid, fun h numbers w' h' => ?_⟩
      rw [hid] at h'
      cases h'
      exact h
    rw [← hid, hall, sat_bind_of_ok hid]
    split
    · rename_i hemp
      rw [List.isEmpty_iff] at hemp
      subst hemp
      refine iff_of_true ?_ fun n hn => absurd hn not_mem_nil
      change ArchivedFirst self.storage w₁.events
      rw [hwor₁]
      exact archivedFirst_nil
    · obtain ⟨w₂, hchu, hwor₂⟩ :=
        self.archiveChunks_eq (Blocks.chunks 100 nums) w₁
      rw [hwor₁] at hwor₂
      dsimp only
      rw [archiveBlocks, sat_bind_of_ok hchu]
      split
      · obtain ⟨w₃, distributed, hdis, hwor₃⟩ :=
          self.distributeToPortal_eq nums w₂
        rw [sat_bind_of_ok hdis]
        rw [hwor₂] at hwor₃
        exact sat_pruneBlocks_covered hwor₃
      · rw [← append_nil (self.chunkEvents _ _ _), ← map_nil (f := Event.distributed)] at hwor₂
        exact sat_pruneBlocks_covered hwor₂

theorem keeps_recordPruned (nums : List UInt64) (pruned : PruneResult) (I : List Event → Prop) :
    Keeps (fun w : World => I w.events) (recordPruned nums pruned) := by
  refine Keeps.bind (Keeps.update fun _ h => h) fun _ => Keeps.bind_read fun _ _ => ?_
  refine Keeps.bind_checked fun _ _ => Keeps.bind_checked fun _ _ => ?_
  exact Keeps.update fun _ h => h

theorem sat_performExpiry_iff {I : List Event → Prop}
    (hret : ∀ p, self.performExpiry w ≠ .panic p) :
    Sat self.performExpiry w (fun _ w' => I w'.events) (fun _ w' => I w'.events) (fun _ => True) ↔
      Sat self.expireBlocks w (fun _ w' => I w'.events) (fun _ w' => I w'.events)
        (fun _ => True) := by
  rw [performExpiry, sat_bind]
  refine sat_congr fun pruned w' hexp => ?_
  cases pruned with
  | none => exact Iff.rfl
  | some pruned =>
    refine ⟨fun h => ?_, keeps_recordPruned _ _ I w'⟩
    by_contra hnot
    have hkept := keeps_recordPruned pruned.1 pruned.2 (¬I ·) w' hnot
    cases hrec : recordPruned pruned.1 pruned.2 w' with
    | ok a w'' => exact hkept.of_ok hrec (h.of_ok hrec)
    | err e w'' => exact hkept.of_err hrec (h.of_err hrec)
    | panic p =>
      refine hret p ?_
      rw [performExpiry, bind_of_ok hexp]
      exact hrec

/-- A run that returns has pruned only what it archived, exactly if each stored block among the
numbers it has identified is read for a chunk that the backend archives. -/
theorem archivedFirst_performExpiry_iff (har : self.config.archiveBeforeExpiry = true)
    (w : World) (heve : w.events = []) (hret : ∀ p, self.performExpiry w ≠ .panic p) :
    Sat self.performExpiry w (fun _ w' => ArchivedFirst self.storage w'.events)
      (fun _ w' => ArchivedFirst self.storage w'.events) (fun _ => True) ↔
      ∀ nums w₁, self.identifyBlocksToExpire w = .ok nums w₁ → self.Covered w₁ nums :=
  (sat_performExpiry_iff hret).trans (archivedFirst_expireBlocks_iff har w heve)

end HistoryExpiryManager

namespace Sample

def failing : HistoryExpiryManager :=
  { manager 11 (.blockBased 3) with archivalBackend := fun _ _ => .error (.archivalError "full") }

theorem archivedFirst_of_backend :
    Sat (manager 11 (.blockBased 3)).performExpiry start
      (fun _ w => ArchivedFirst (manager 11 (.blockBased 3)).storage w.events)
      (fun _ w => ArchivedFirst (manager 11 (.blockBased 3)).storage w.events)
      (fun _ => True) := by
  apply (HistoryExpiryManager.archivedFirst_performExpiry_iff rfl start rfl
    fun _ h => (by cases h)).mpr
  intro nums w₁ h
  obtain ⟨rfl, rfl⟩ : nums = [0] ∧ w₁ = { start with storageCalls := 1 } := by
    cases h
    exact ⟨rfl, rfl⟩
  intro n hn block hblk
  obtain rfl := mem_singleton.mp hn
  cases hblk
  exact ⟨0, by decide, mem_cons_self, rfl⟩

/-- Although the backend has refused it, the block is passed to the pruning engine. -/
theorem not_archivedFirst_of_failure :
    ∃ w, failing.performExpiry start = .ok () w ∧
      w.events = [.archivalFailed [.new .new], .distributed (.new .new), .pruning [0]] ∧
      ¬ArchivedFirst failing.storage w.events := by
  refine ⟨_, rfl, rfl, fun h => ?_⟩
  obtain ⟨blocks, hblo, -⟩ := h [_, _] [0] [] rfl 0 mem_cons_self (.new .new) rfl
  simp at hblo

end Sample

end EthereumRust.HistoryExpiry
