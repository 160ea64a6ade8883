import EthereumRust.HistoryExpiry.Manager
import EthereumRust.Lib.History

/-!
# The retrieval of expired blocks (`crates/history-expiry`: `retrieval.rs`)

A retriever looks into its cache, and then asks the portal network and the archive in an order that
its strategy gives. The lookup in the archive does not use the hash: it takes the first block of the
archive named `archive_id` with a number in `0..1`, whatever was asked for.

A call is given the answers of its surroundings: what the archive holds, what the portal client
answers, which of two parallel tasks is the first to finish, when the cache is looked at and when it
is written, and which of the oldest entries a full cache gives up. Statistics are left out.
-/

namespace EthereumRust.HistoryExpiry

open Rust EthereumRust.Core History List

structure Archive where
  archives : List (String × List Block)

def Archive.retrieveBlocks (self : Archive) (archiveId : String) (first last : Nat) :
    Except HistoryExpiryError (List Block) :=
  match self.archives.find? fun entry => entry.1 == archiveId with
  | none => .error (.retrievalError "Archive not found")
  | some (_, blocks) => .ok (blocks.filter fun block =>
      first ≤ block.header.number.toNat && block.header.number.toNat < last)

inductive RetrievalStrategy where
  | localFirst
  | networkFirst
  | parallel
  /-- In numbers of blocks. No function reads them. -/
  | adaptive (recentThreshold archiveAfter : UInt64)
  deriving DecidableEq, Repr

structure CachedBlock where
  block : Block
  retrievedAt : Nat
  deriving DecidableEq

structure Request where
  blockHash : H256
  archive : Archive

structure Call extends Request where
  portal : H256 → Except HistoryExpiryError (Option Block)
  archiveFinishesFirst : Bool
  now : Nat
  cachedAt : Nat
  oldest : H256

/-- `Duration::from_secs(300)`, in nanoseconds. -/
def cacheLifetime : Nat := 300 * nanosPerSecond

def maxCacheSize : Nat := 1000

def Request.retrieveFromArchive (request : Request) : Except HistoryExpiryError (Option Block) := do
  let blocks ← request.archive.retrieveBlocks "archive_id" 0 1
  return blocks.head?

namespace Call
variable (call : Call)

def retrieveFromNetwork : Except HistoryExpiryError (Option Block) := call.portal call.blockHash

def retrieveLocalFirst : Except HistoryExpiryError (Option Block) :=
  match call.retrieveFromArchive with
  | .ok (some block) => .ok (some block)
  | _ => call.retrieveFromNetwork

def retrieveNetworkFirst : Except HistoryExpiryError (Option Block) :=
  match call.retrieveFromNetwork with
  | .ok (some block) => .ok (some block)
  | _ => call.retrieveFromArchive

def retrieveParallel : Except HistoryExpiryError (Option Block) :=
  if call.archiveFinishesFirst then
    match call.retrieveFromArchive with
    | .ok (some block) => .ok (some block)
    | _ =>
      match call.retrieveFromNetwork with
      | .ok block => .ok block
      | .error _ => .ok none
  else
    match call.retrieveFromNetwork with
    | .ok (some block) => .ok (some block)
    | _ =>
      match call.retrieveFromArchive with
      | .ok block => .ok block
      | .error _ => .ok none

def retrieveAdaptive : Except HistoryExpiryError (Option Block) :=
  match call.retrieveFromNetwork with
  | .ok (some block) => .ok (some block)
  | _ =>
    match call.retrieveFromArchive with
    | .ok (some block) => .ok (some block)
    | _ => .ok none

def retrieveWith : RetrievalStrategy → Except HistoryExpiryError (Option Block)
  | .localFirst => call.retrieveLocalFirst
  | .networkFirst => call.retrieveNetworkFirst
  | .parallel => call.retrieveParallel
  | .adaptive _ _ => call.retrieveAdaptive

end Call

structure HistoryRetriever where
  strategy : RetrievalStrategy
  cache : HashMap H256 CachedBlock

namespace HistoryRetriever

def new (strategy : RetrievalStrategy) : HistoryRetriever where
  strategy
  cache := ∅

def getFromCache (self : HistoryRetriever) (blockHash : H256) (now : Nat) :
    Option Block × HistoryRetriever :=
  match self.cache.lookup blockHash with
  | none => (none, self)
  | some cached =>
    if now - cached.retrievedAt < cacheLifetime then (some cached.block, self)
    else (none, { self with cache := self.cache.erase blockHash })

def cacheBlock (self : HistoryRetriever) (blockHash : H256) (block : Block) (now : Nat)
    (oldest : H256) : HistoryRetriever :=
  let cache := if maxCacheSize ≤ self.cache.keys.card then self.cache.erase oldest else self.cache
  { self with cache := cache.insert blockHash ⟨block, now⟩ }

def retrieveBlock (self : HistoryRetriever) (call : Call) :
    Except HistoryExpiryError (Option Block) × HistoryRetriever :=
  match self.getFromCache call.blockHash call.now with
  | (some block, self) => (.ok (some block), self)
  | (none, self) =>
    match call.retrieveWith self.strategy with
    | .ok (some block) =>
      (.ok (some block), self.cacheBlock call.blockHash block call.cachedAt call.oldest)
    | result => (result, self)

end HistoryRetriever

section
variable [Crypto]

def Answers (result : Except HistoryExpiryError (Option Block)) (blockHash : H256) : Prop :=
  ∀ block, result = .ok (some block) → block.header.hash = blockHash

/-- The portal network answers with no other block than the one asked for. -/
def Call.Honest (call : Call) : Prop := ∀ blockHash, Answers (call.portal blockHash) blockHash

/-- The first block with number 0 of the archive `archive_id`, if there is one, has the hash. -/
def Request.Found (request : Request) : Prop :=
  ∀ entry ∈ request.archive.archives.find? (·.1 == "archive_id"),
    ∀ block ∈ entry.2.find? (·.header.number.toNat = 0), block.header.hash = request.blockHash

theorem Request.found_iff {request : Request} :
    request.Found ↔ Answers request.retrieveFromArchive request.blockHash := by
  rw [Found, Answers, retrieveFromArchive, Archive.retrieveBlocks]
  cases request.archive.archives.find? (·.1 == "archive_id") with
  | none => exact iff_of_true (fun _ h => (by cases h)) fun _ h => (by cases h)
  | some entry =>
    have hzero (block : Block) : (decide (0 ≤ block.header.number.toNat) &&
        decide (block.header.number.toNat < 1)) = decide (block.header.number.toNat = 0) := by
      simp
    change _ ↔ ∀ block, Except.ok (entry.2.filter _).head? = Except.ok (some block) → _
    rw [funext hzero, head?_filter]
    refine ⟨fun h block hblk => h entry rfl block (Except.ok.inj hblk), ?_⟩
    rintro h _ ⟨⟩ block hblk
    exact h block (congrArg Except.ok hblk)

theorem answers_none : Answers (.ok none) bh := by
  intro block h
  cases h

theorem Call.answers_retrieveWith {call : Call} (hpor : call.Honest) (har : call.toRequest.Found) :
    Answers (call.retrieveWith strategy) call.blockHash := by
  have hnet : Answers call.retrieveFromNetwork call.blockHash := hpor call.blockHash
  rw [Request.found_iff] at har
  cases strategy with
  | localFirst =>
    rw [retrieveWith, retrieveLocalFirst]
    split
    · rename_i h
      rwa [h] at har
    · exact hnet
  | networkFirst =>
    rw [retrieveWith, retrieveNetworkFirst]
    split
    · rename_i h
      rwa [h] at hnet
    · exact har
  | parallel =>
    rw [retrieveWith, retrieveParallel]
    split
    · split
      · rename_i h
        rwa [h] at har
      · split
        · rename_i h
          rwa [h] at hnet
        · exact answers_none
    · split
      · rename_i h
        rwa [h] at hnet
      · split
        · rename_i h
          rwa [h] at har
        · exact answers_none
  | adaptive recentThreshold archiveAfter =>
    rw [retrieveWith, retrieveAdaptive]
    split
    · rename_i h
      rwa [h] at hnet
    · split
      · rename_i h
        rwa [h] at har
      · exact answers_none

end

namespace HistoryRetriever
variable {self : HistoryRetriever}

def AllCached (R : H256 → CachedBlock → Prop) (self : HistoryRetriever) : Prop :=
  ∀ blockHash cached, self.cache.lookup blockHash = some cached → R blockHash cached

theorem allCached_new (strategy : RetrievalStrategy) : (new strategy).AllCached R := by
  intro bh cached h
  cases h

theorem AllCached.imp (h : self.AllCached R)
    (hR : ∀ bh cached, R bh cached → R' bh cached) : self.AllCached R' :=
  fun bh cached hca => hR _ _ (h bh cached hca)

theorem lookup_of_lookup_erase {cache : HashMap H256 CachedBlock}
    (h : (cache.erase k).lookup bh = some cached) : cache.lookup bh = some cached := by
  rcases eq_or_ne bh k with rfl | hk
  · rw [Finmap.lookup_erase] at h
    cases h
  · rwa [Finmap.lookup_erase_ne hk] at h

theorem getFromCache_cases (self : HistoryRetriever) (bh : H256) (now : Nat) :
    (∃ cached, self.cache.lookup bh = some cached ∧
      now - cached.retrievedAt < cacheLifetime ∧
      self.getFromCache bh now = (some cached.block, self)) ∨
    ∃ self', self.getFromCache bh now = (none, self') ∧ self'.strategy = self.strategy ∧
      ∀ R, self.AllCached R → self'.AllCached R := by
  rw [getFromCache]
  cases hca : self.cache.lookup bh with
  | none => exact .inr ⟨self, rfl, rfl, fun _ h => h⟩
  | some cached =>
    dsimp only
    split
    · rename_i hyou
      exact .inl ⟨cached, rfl, hyou, rfl⟩
    · refine .inr ⟨_, rfl, rfl, fun R h k cached hca => ?_⟩
      exact h k cached (lookup_of_lookup_erase hca)

theorem AllCached.cacheBlock (h : self.AllCached R) (hblk : R bh ⟨block, now⟩) (oldest : H256) :
    (self.cacheBlock bh block now oldest).AllCached R := by
  intro k cached hca
  rw [HistoryRetriever.cacheBlock, HashMap.lookup_insert_ite] at hca
  split_ifs at hca with hk hfull
  · cases hca
    rwa [hk]
  · exact h k cached (lookup_of_lookup_erase hca)
  · exact h k cached hca

theorem retrieveBlock_of_miss (h : self.getFromCache call.blockHash call.now = (none, self')) :
    (self.retrieveBlock call).1 = call.retrieveWith self'.strategy ∧
      ((self.retrieveBlock call).2 = self' ∨
        ∃ block, call.retrieveWith self'.strategy = .ok (some block) ∧
          (self.retrieveBlock call).2 =
            self'.cacheBlock call.blockHash block call.cachedAt call.oldest) := by
  rw [retrieveBlock, h]
  dsimp only
  split
  · rename_i block hblk
    exact ⟨hblk.symm, .inr ⟨block, hblk, rfl⟩⟩
  · exact ⟨rfl, .inl rfl⟩

theorem retrieveBlock_of_hit (h : self.getFromCache call.blockHash call.now = (some block, self)) :
    self.retrieveBlock call = (.ok (some block), self) := by
  rw [retrieveBlock, h]

theorem AllCached.retrieveBlock (h : self.AllCached R)
    (hcall : ∀ block, call.retrieveWith self.strategy = .ok (some block) →
      R call.blockHash ⟨block, call.cachedAt⟩) : (self.retrieveBlock call).2.AllCached R := by
  rcases self.getFromCache_cases call.blockHash call.now with
    ⟨cached, -, -, hhit⟩ | ⟨self', hmiss, hstr, hcac⟩
  · rw [retrieveBlock_of_hit hhit]
    exact h
  · rcases (retrieveBlock_of_miss hmiss).2 with heq | ⟨block, hblk, heq⟩
    · rw [heq]
      exact hcac R h
    · rw [heq]
      rw [hstr] at hblk
      exact (hcac R h).cacheBlock (hcall block hblk) call.oldest

def step (self : HistoryRetriever) (call : Call) : Option HistoryRetriever :=
  some (self.retrieveBlock call).2

section
variable [Crypto]

/-- `retrieve_block` answers with no other block than the one asked for. -/
def AnswersCall (self : HistoryRetriever) (call : Call) : Prop :=
  Answers (self.retrieveBlock call).1 call.blockHash

theorem AllCached.answersCall (h : self.AllCached fun bh cached => cached.block.header.hash = bh)
    (hpor : call.Honest) (har : call.toRequest.Found) : self.AnswersCall call := by
  rw [AnswersCall]
  rcases self.getFromCache_cases call.blockHash call.now with
    ⟨cached, hca, -, hhit⟩ | ⟨self', hmiss, -, -⟩
  · rw [retrieveBlock_of_hit hhit]
    intro block hblk
    cases hblk
    exact h _ _ hca
  · rw [(retrieveBlock_of_miss hmiss).1]
    exact Call.answers_retrieveWith hpor har

theorem along_of_found {calls : List Call}
    (h : self.AllCached fun bh cached => cached.block.header.hash = bh)
    (hcal : ∀ call ∈ calls, call.Honest ∧ call.toRequest.Found) :
    Along step AnswersCall self calls := by
  induction calls generalizing self with
  | nil => trivial
  | cons call calls ih =>
    rw [forall_mem_cons] at hcal
    obtain ⟨⟨hpor, har⟩, hcal⟩ := hcal
    refine ⟨h.answersCall hpor har, ?_⟩
    rintro self' ⟨⟩
    refine ih (h.retrieveBlock fun block hblk => ?_) hcal
    exact Call.answers_retrieveWith hpor har block hblk

end

end HistoryRetriever

def Request.alone (request : Request) (now : Nat) : Call where
  toRequest := request
  portal _ := .ok none
  archiveFinishesFirst := true
  now
  cachedAt := now
  oldest := .zero

def aloneFrom : Nat → List Request → List Call
  | _, [] => []
  | now, request :: requests => request.alone now :: aloneFrom (now + cacheLifetime) requests

theorem map_toRequest_aloneFrom : (aloneFrom now reqs).map Call.toRequest = reqs := by
  induction reqs generalizing now with
  | nil => rfl
  | cons req reqs ih =>
    rw [aloneFrom, map_cons, ih]
    rfl

theorem retrieveWith_alone {req : Request} (h : req.retrieveFromArchive = .ok (some block)) :
    (req.alone now).retrieveWith strategy = .ok (some block) := by
  have har : (req.alone now).retrieveFromArchive = .ok (some block) := h
  cases strategy with
  | localFirst => rw [Call.retrieveWith, Call.retrieveLocalFirst, har]
  | networkFirst => exact har
  | parallel =>
    rw [Call.retrieveWith, Call.retrieveParallel, har]
    rfl
  | adaptive recentThreshold archiveAfter =>
    rw [Call.retrieveWith, Call.retrieveAdaptive, har]
    rfl

namespace HistoryRetriever

section
variable [Crypto]

theorem honest_aloneFrom (now : Nat) : ∀ call ∈ aloneFrom now reqs, call.Honest := by
  induction reqs generalizing now with
  | nil => exact forall_mem_nil _
  | cons req reqs ih =>
    exact forall_mem_cons.mpr ⟨fun bh => answers_none, ih _⟩

theorem found_of_along
    (hold : self.AllCached fun _ cached => cached.retrievedAt + cacheLifetime ≤ now)
    (h : Along step AnswersCall self (aloneFrom now reqs)) : ∀ req ∈ reqs, req.Found := by
  induction reqs generalizing self now with
  | nil => exact forall_mem_nil _
  | cons req reqs ih =>
    obtain ⟨hans, hrest⟩ := h
    refine forall_mem_cons.mpr ⟨Request.found_iff.mpr fun block hblk => ?_, ih ?_ (hrest _ rfl)⟩
    · refine hans block ?_
      rcases self.getFromCache_cases req.blockHash now with
        ⟨cached, hca, hyou, -⟩ | ⟨self', hmiss, -, -⟩
      · have := hold _ _ hca
        omega
      · exact (retrieveBlock_of_miss hmiss).1.trans (retrieveWith_alone hblk)
    · refine AllCached.retrieveBlock (hold.imp fun _ _ hle => ?_) fun block _ => ?_
      · exact le_trans hle (Nat.le_add_right _ _)
      · exact le_refl _

/-- Whatever an honest portal answers and whatever the timing is, the calls are answered with the
blocks that they ask for if and only if the block that the archive gives for any hash is always the
right one. -/
theorem answersCall_iff (strategy : RetrievalStrategy) (reqs : List Request) :
    (∀ calls : List Call, calls.map Call.toRequest = reqs → (∀ call ∈ calls, call.Honest) →
      Along step AnswersCall (new strategy) calls) ↔ ∀ req ∈ reqs, req.Found := by
  constructor
  · intro h
    refine found_of_along (allCached_new strategy) (h (aloneFrom 0 reqs) ?_ ?_)
    · exact map_toRequest_aloneFrom
    · exact honest_aloneFrom 0
  · rintro h calls rfl hhon
    refine along_of_found (allCached_new strategy) fun call hcall => ⟨hhon call hcall, ?_⟩
    exact h _ (mem_map_of_mem hcall)

end

namespace Sample
open scoped Unhashed

def archive : Archive := ⟨[("archive_id", [.new .new])]⟩

def unknownHash : H256 := ⟨List.replicate 32 1, List.length_replicate⟩

/-- The archive answers with its block 0, whatever hash was asked for. -/
theorem retrieveBlock_wrong :
    ((new .localFirst).retrieveBlock (Request.alone ⟨unknownHash, archive⟩ 0)).1 =
        .ok (some (.new .new)) ∧
      (Block.new .new).header.hash ≠ unknownHash ∧
      (Request.alone ⟨unknownHash, archive⟩ 0).Honest := by
  exact ⟨rfl, by decide, fun bh => answers_none⟩

end Sample

end HistoryRetriever

end EthereumRust.HistoryExpiry
