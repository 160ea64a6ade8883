import EthereumRust.Consensus.Config
import EthereumRust.Consensus.ForkChoice

/-!
# Common ancestors (`crates/consensus`: `fork_choice.rs`)

`find_common_ancestor` collects the ancestors of the first block and walks up from each other block
to the first hash among them. The result is the lowest common ancestor of the first and the last
block, and the blocks between them do not count.
-/

namespace EthereumRust.Consensus

open Rust EthereumRust.Core Ancestry List

namespace ForkChoice

def collectTurn (self : ForkChoice) :
    Finset H256 × H256 → Loop.Turn (Finset H256 × H256) (Finset H256 × H256)
  | (ancestors, current) =>
    if current ≠ H256.zero then
      match self.blocks.lookup current with
      | some info => .next (insert current ancestors, info.header.parentHash)
      | none => .done (insert current ancestors, current)
    else .done (ancestors, current)

def meetTurn (self : ForkChoice) (ancestors : Finset H256) (current : H256) :
    Loop.Turn H256 H256 :=
  if current ≠ H256.zero ∧ current ∉ ancestors then
    match self.blocks.lookup current with
    | some info => .next info.header.parentHash
    | none => .done current
  else .done current

/-- `find_common_ancestor`, for at most `fuel` turns of each of its loops. -/
def findCommonAncestor (fuel : Nat) (self : ForkChoice) :
    List Block → Option (Except ConsensusError H256)
  | [] => some (.error (.forkChoiceError "No blocks provided"))
  | first :: rest => do
    let (ancestors, current) ← Loop.exec self.collectTurn fuel (∅, first.header.parentHash)
    let current ← rest.foldlM
      (fun _ block => Loop.exec (self.meetTurn ancestors) fuel block.header.parentHash) current
    return .ok current

/-- The parent as both walks follow it: they end at the zero hash. -/
def parentOf (self : ForkChoice) (hash : H256) : Option H256 :=
  if hash = H256.zero then none else (self.blocks.lookup hash).map (·.header.parentHash)

/-- What the first walk collects when it starts at `block`. -/
def ProperAncestor (self : ForkChoice) (block : Block) (ancestor : H256) : Prop :=
  ancestor ≠ H256.zero ∧ Above self.parentOf block.header.parentHash ancestor

structure LowestCommon (store : ForkChoice) (first last : Block) (ancestor : H256) : Prop where
  left : store.ProperAncestor first ancestor
  right : store.ProperAncestor last ancestor
  lowest : ∀ other, store.ProperAncestor first other → store.ProperAncestor last other →
    Above store.parentOf ancestor other

section
variable {t : ForkChoice} {hash par start last : H256} {info : BlockInfo}
  {ancs : Finset H256}

theorem parentOf_zero : t.parentOf H256.zero = none := if_pos rfl

theorem parentOf_of_lookup (hzero : hash ≠ H256.zero)
    (h : t.blocks.lookup hash = some info) : t.parentOf hash = some info.header.parentHash := by
  rw [parentOf, if_neg hzero, h]
  rfl

theorem parentOf_of_lookup_none (h : t.blocks.lookup hash = none) : t.parentOf hash = none := by
  rw [parentOf, h]
  split_ifs <;> rfl

theorem eq_zero_of_above_zero (h : Above t.parentOf H256.zero hash) : hash = H256.zero :=
  (above_of_none parentOf_zero).mp h

theorem collectTurn_cases :
    (∃ par, t.parentOf cur = some par ∧ cur ≠ H256.zero ∧
      t.collectTurn (ancs, cur) = .next (insert cur ancs, par)) ∨
    (t.parentOf cur = none ∧ cur ≠ H256.zero ∧
      t.collectTurn (ancs, cur) = .done (insert cur ancs, cur)) ∨
    (cur = H256.zero ∧ t.collectTurn (ancs, cur) = .done (ancs, cur)) := by
  unfold collectTurn
  dsimp only
  split_ifs with hzero
  · cases hget : t.blocks.lookup cur with
    | some info => exact .inl ⟨_, parentOf_of_lookup hzero hget, hzero, rfl⟩
    | none => exact .inr (.inl ⟨parentOf_of_lookup_none hget, hzero, rfl⟩)
  · exact .inr (.inr ⟨not_not.mp hzero, rfl⟩)

theorem meetTurn_cases :
    (∃ par, t.parentOf cur = some par ∧ cur ∉ ancs ∧
      t.meetTurn ancs cur = .next par) ∨
    ((t.parentOf cur = none ∨ cur ∈ ancs) ∧
      t.meetTurn ancs cur = .done cur) := by
  unfold meetTurn
  split_ifs with hgo
  · cases hget : t.blocks.lookup cur with
    | some info => exact .inl ⟨_, parentOf_of_lookup hgo.1 hget, hgo.2, rfl⟩
    | none => exact .inr ⟨.inl (parentOf_of_lookup_none hget), rfl⟩
  · refine .inr ⟨?_, rfl⟩
    by_cases hzero : cur = H256.zero
    · subst hzero
      exact .inl parentOf_zero
    · exact .inr (not_not.mp fun hmem => hgo ⟨hzero, hmem⟩)

structure Collected (store : ForkChoice) (start : H256) (ancestors : Finset H256) (last : H256) :
    Prop where
  mem_iff : ∀ hash, hash ∈ ancestors ↔ hash ≠ H256.zero ∧ Above store.parentOf start hash
  last_above : Above store.parentOf start last
  last_end : store.parentOf last = none

/-- What the first walk has collected when it ends. -/
theorem collected_of_leaves (h : Loop.Leaves t.collectTurn (∅, start) (ancs, last)) :
    Collected t start ancs last := by
  -- from any state, the loop adds the ancs of the cursor to what it has collected
  suffices hgen : ∀ s, Loop.Leaves t.collectTurn s (ancs, last) →
      (∀ hash, hash ∈ ancs ↔ hash ∈ s.1 ∨ hash ≠ H256.zero ∧ Above t.parentOf s.2 hash) ∧
      Above t.parentOf s.2 last ∧ t.parentOf last = none by
    obtain ⟨hmem, habv, hend⟩ := hgen _ h
    exact ⟨fun hash => by simp [hmem hash], habv, hend⟩
  intro s hs
  refine hs.induct (fun s => (∀ hash, hash ∈ ancs ↔
    hash ∈ s.1 ∨ hash ≠ H256.zero ∧ Above t.parentOf s.2 hash) ∧
      Above t.parentOf s.2 last ∧ t.parentOf last = none) ?_ ?_
  · rintro ⟨collected, cur⟩ hturn
    obtain ⟨par, -, -, h⟩ | ⟨hpar, hzero, h⟩ | ⟨hzero, h⟩ :=
      collectTurn_cases
    · cases h.symm.trans hturn
    · cases h.symm.trans hturn
      refine ⟨fun hash => ?_, .refl, hpar⟩
      rw [above_of_none hpar]
      grind
    · cases h.symm.trans hturn
      subst hzero
      refine ⟨fun hash => ?_, .refl, parentOf_zero⟩
      rw [above_of_none parentOf_zero]
      grind
  · rintro ⟨collected, cur⟩ s' hturn ⟨hmem, habv, hend⟩
    obtain ⟨par, hpar, hzero, h⟩ | ⟨-, -, h⟩ | ⟨-, h⟩ :=
      collectTurn_cases
    · cases h.symm.trans hturn
      refine ⟨fun hash => ?_, (above_of_parent hpar).mpr (.inr habv), hend⟩
      rw [above_of_parent hpar]
      grind
    · cases h.symm.trans hturn
    · cases h.symm.trans hturn

theorem met_of_leaves (h : Loop.Leaves (t.meetTurn ancs) start last) :
    Above t.parentOf start last ∧ (t.parentOf last = none ∨ last ∈ ancs) ∧
      ∀ hash ∈ ancs, Above t.parentOf start hash → Above t.parentOf last hash := by
  refine h.induct (fun cur => Above t.parentOf cur last ∧
    (t.parentOf last = none ∨ last ∈ ancs) ∧
    ∀ hash ∈ ancs, Above t.parentOf cur hash → Above t.parentOf last hash) ?_ ?_
  · intro cur hturn
    obtain ⟨par, -, -, h⟩ | ⟨hend, h⟩ := meetTurn_cases
    · cases h.symm.trans hturn
    · cases h.symm.trans hturn
      exact ⟨.refl, hend, fun _ _ habv => habv⟩
  · rintro cur par hturn ⟨habv, hend, hahe⟩
    obtain ⟨par', hpar, hmem, h⟩ | ⟨-, h⟩ := meetTurn_cases
    · cases h.symm.trans hturn
      refine ⟨(above_of_parent hpar).mpr (.inr habv), hend, fun hash hhash h => ?_⟩
      obtain rfl | h := (above_of_parent hpar).mp h
      · exact absurd hhash hmem
      · exact hahe hash hhash h
    · cases h.symm.trans hturn

theorem collectTurn_eq_next (h : t.collectTurn s = .next s') : t.parentOf s.2 = some s'.2 := by
  obtain ⟨par, hpar, -, hturn⟩ | ⟨-, -, hturn⟩ | ⟨-, hturn⟩ := collectTurn_cases
  · cases hturn.symm.trans h
    exact hpar
  · cases hturn.symm.trans h
  · cases hturn.symm.trans h

theorem meetTurn_eq_next (h : t.meetTurn ancs cur = .next par) :
    t.parentOf cur = some par := by
  obtain ⟨par', hpar, -, hturn⟩ | ⟨-, hturn⟩ := meetTurn_cases
  · cases hturn.symm.trans h
    exact hpar
  · cases hturn.symm.trans h

theorem exists_met (hacy : Acyclic t.parentOf) (rest : List Block) (cur : H256) :
    ∃ hash, (∃ n, ∀ fuel, n ≤ fuel → rest.foldlM
        (fun _ block => Loop.exec (t.meetTurn ancs) fuel block.header.parentHash) cur =
          some hash) ∧
      (rest = [] → hash = cur) ∧
      ∀ last ∈ rest.getLast?, Loop.Leaves (t.meetTurn ancs) last.header.parentHash hash := by
  induction rest generalizing cur with
  | nil => exact ⟨cur, ⟨0, fun _ _ => rfl⟩, fun _ => rfl, fun _ h => by cases h⟩
  | cons block rest ih =>
    obtain ⟨met, hmet⟩ : Loop.Halts (t.meetTurn ancs) block.header.parentHash :=
      halts_of_acyclic (fun cur => cur) hacy (fun _ _ => meetTurn_eq_next) _
    obtain ⟨n, hn⟩ := hmet.eventually
    obtain ⟨hash, ⟨m, hm⟩, hnil, hlast⟩ := ih met
    refine ⟨hash, ⟨max n m, fun fuel hfuel => ?_⟩, fun h => absurd h (cons_ne_nil _ _),
      fun last h => ?_⟩
    · rw [foldlM_cons, hn fuel (le_trans (le_max_left ..) hfuel)]
      exact hm fuel (le_trans (le_max_right ..) hfuel)
    · cases rest with
      | nil =>
        cases h
        rw [hnil rfl]
        exact hmet
      | cons next rest => exact hlast last (by rwa [getLast?_cons_cons] at h)

theorem exists_findCommonAncestor (hacy : Acyclic t.parentOf) :
    ∃ hash, (∃ fuel, t.findCommonAncestor fuel (first :: rest) = some (.ok hash)) ∧
      ∃ ancs top, Collected t first.header.parentHash ancs top ∧
        (rest = [] → hash = top) ∧
        ∀ last ∈ rest.getLast?,
          Loop.Leaves (t.meetTurn ancs) last.header.parentHash hash := by
  obtain ⟨⟨ancs, top⟩, hcol⟩ :
      Loop.Halts t.collectTurn (∅, first.header.parentHash) :=
    halts_of_acyclic Prod.snd hacy (fun _ _ => collectTurn_eq_next) _
  obtain ⟨n, hn⟩ := hcol.eventually
  obtain ⟨hash, ⟨m, hm⟩, hnil, hlast⟩ := exists_met hacy rest top
  refine ⟨hash, ⟨max n m, ?_⟩, ancs, top, collected_of_leaves hcol, hnil, hlast⟩
  rw [findCommonAncestor, hn _ (le_max_left ..)]
  dsimp only [Option.bind_eq_bind, Option.bind_some]
  rw [hm _ (le_max_right ..)]
  rfl

theorem lowestCommon_of_leaves {first last : Block}
    (hcol : Collected t first.header.parentHash ancs top)
    (hmet : Loop.Leaves (t.meetTurn ancs) last.header.parentHash hash)
    (hfst : t.ProperAncestor first cur) (hlast : t.ProperAncestor last cur) :
    t.LowestCommon first last hash := by
  obtain ⟨habv, hend, hahe⟩ := met_of_leaves hmet
  have hcur := hahe cur ((hcol.mem_iff cur).mpr hfst) hlast.2
  have hmem : hash ∈ ancs := by
    obtain hnone | hmem := hend
    · rw [← (above_of_none hnone).mp hcur]
      exact (hcol.mem_iff cur).mpr hfst
    · exact hmem
  have hleft := (hcol.mem_iff hash).mp hmem
  refine ⟨hleft, ⟨hleft.1, habv⟩, fun other hoth hoth' => ?_⟩
  exact hahe other ((hcol.mem_iff other).mpr hoth) hoth'.2

theorem LowestCommon.unique {first last : Block} (hacy : Acyclic t.parentOf)
    (h : t.LowestCommon first last hash) (h' : t.LowestCommon first last cur) : hash = cur :=
  (h.lowest _ h'.left h'.right).antisymm hacy (h'.lowest _ h.left h.right)

theorem Collected.top_ne_zero_iff (h : Collected t start ancs top) :
    top ≠ H256.zero ↔ ¬Above t.parentOf start H256.zero := by
  refine not_congr ⟨fun htop => htop ▸ h.last_above, fun hzero => ?_⟩
  obtain habv | habv := Above.total hzero h.last_above
  · exact eq_zero_of_above_zero habv
  · exact ((above_of_none h.last_end).mp habv).symm

end

/-- For blocks that have a stored common ancestor, `find_common_ancestor` returns a common ancestor
exactly if the list is a single block whose chain does not lead to the zero hash, or the lowest
common ancestor of the first and the last block is an ancestor of all blocks. -/
theorem findCommonAncestor_correct_iff (t : ForkChoice) (first : Block) (rest : List Block)
    (hacy : Acyclic t.parentOf)
    (hcom : ∃ ancestor ∈ t.blocks, ∀ block ∈ first :: rest, t.ProperAncestor block ancestor) :
    ∃ hash, (∃ fuel, t.findCommonAncestor fuel (first :: rest) = some (.ok hash)) ∧
      ((∀ block ∈ first :: rest, t.ProperAncestor block hash) ↔
        (rest = [] → ¬Above t.parentOf first.header.parentHash H256.zero) ∧
        ∀ last ∈ rest.getLast?, ∀ ancestor, t.LowestCommon first last ancestor →
          ∀ block ∈ rest, t.ProperAncestor block ancestor) := by
  obtain ⟨hash, hfind, ancs, top, hcol, hnil, hlast⟩ := exists_findCommonAncestor hacy
  refine ⟨hash, hfind, ?_⟩
  obtain ⟨ancestor, -, hcom⟩ := hcom
  cases hrest : rest.getLast? with
  | none =>
    obtain rfl := getLast?_eq_none_iff.mp hrest
    cases hnil rfl
    simp only [mem_singleton, forall_eq, ProperAncestor, hcol.last_above, hcol.top_ne_zero_iff]
    simp
  | some last =>
    have hmem : last ∈ rest := mem_of_getLast? hrest
    have hlow : t.LowestCommon first last hash :=
      lowestCommon_of_leaves hcol (hlast last hrest) (hcom first mem_cons_self)
        (hcom last (mem_cons_of_mem _ hmem))
    constructor
    · intro hall
      refine ⟨fun h => absurd hmem (h ▸ not_mem_nil), ?_⟩
      intro last' hlast' ancestor' hanc' block hblk
      cases hlast'
      rw [← hlow.unique hacy hanc']
      exact hall block (mem_cons_of_mem _ hblk)
    · rintro ⟨-, hrest⟩ block hblk
      obtain rfl | hblk := mem_cons.mp hblk
      · exact hlow.left
      · exact hrest last rfl hash hlow block hblk

namespace Sample

def root : H256 := H256.ofU256 1

def child : H256 := H256.ofU256 2

def blockOn (parentHash : H256) : Block := .new { Header.new with parentHash }

def infoOn (parentHash : H256) : BlockInfo where
  header := (blockOn parentHash).header
  totalDifficulty := 0
  weight := 1
  justified := false
  finalized := false

def tree : ForkChoice :=
  { new with
    blocks := ((∅ : HashMap H256 BlockInfo).insert root (infoOn H256.zero)).insert child
      (infoOn root) }

def forks : List Block := [blockOn child, blockOn root, blockOn child]

theorem tree_acyclic : Acyclic tree.parentOf := by
  apply acyclic_of_rank fun hash => (U256.ofHash hash).toNat
  intro hash par h
  unfold Ancestry.Parent parentOf at h
  split_ifs at h
  obtain ⟨info, hinfo, rfl⟩ := Option.map_eq_some_iff.mp h
  dsimp only [tree] at hinfo
  rw [HashMap.lookup_insert_ite, HashMap.lookup_insert_ite] at hinfo
  split_ifs at hinfo with hch hroot
  · cases hinfo
    subst hch
    decide
  · cases hinfo
    subst hroot
    decide
  · cases hinfo

theorem forks_common : ∃ ancestor ∈ tree.blocks, ∀ block ∈ forks,
    tree.ProperAncestor block ancestor := by
  have hch : Above tree.parentOf child root :=
    .single (show tree.parentOf child = some root by decide)
  refine ⟨root, by decide, fun block hblk => ⟨by decide, ?_⟩⟩
  simp only [forks, mem_cons, not_mem_nil, or_false] at hblk
  obtain rfl | rfl | rfl := hblk
  · exact hch
  · exact .refl
  · exact hch

end Sample

open Sample

theorem findCommonAncestor_correct_forks :
    ∃ hash, (∃ fuel, tree.findCommonAncestor fuel forks = some (.ok hash)) ∧
      ((∀ block ∈ forks, tree.ProperAncestor block hash) ↔
        (forks.tail = [] → ¬Above tree.parentOf child H256.zero) ∧
        ∀ last ∈ forks.tail.getLast?, ∀ ancestor,
          tree.LowestCommon (blockOn child) last ancestor →
            ∀ block ∈ forks.tail, tree.ProperAncestor block ancestor) :=
  findCommonAncestor_correct_iff tree _ _ tree_acyclic forks_common

/-- The block in the middle is passed over: its parent is the root, and the result lies below. -/
theorem findCommonAncestor_passes_over :
    tree.findCommonAncestor 4 forks = some (.ok child) ∧
      ∃ block ∈ forks, ¬tree.ProperAncestor block child := by
  refine ⟨by decide, blockOn root, mem_cons_of_mem _ mem_cons_self, ?_⟩
  rintro ⟨hzero, habv⟩
  have hroot : tree.parentOf root = some H256.zero := by decide
  obtain heq | habv := (above_of_parent hroot).mp habv
  · exact absurd heq (by decide)
  · exact hzero (eq_zero_of_above_zero habv)

end ForkChoice

end EthereumRust.Consensus
