import EthereumRust.Consensus.ForkChoice

/-!
# The longest chain rule (`crates/consensus`: `fork_choice.rs`)

`select_longest_chain` keeps the best block it has seen: one with a greater number is better, and of
two with the same number the one with the lower hash.
-/

namespace EthereumRust.Consensus

open Rust EthereumRust.Core List

namespace ForkChoice

/-- `hash < other`: the bytes are compared from the first one on. -/
def hashLt (hash other : H256) : Bool :=
  hash.toList.lex other.toList fun byte otherByte => byte < otherByte

def getTotalDifficulty (header : Header) : Checked U256 := header.number.mul 1000000

def preferBlock [Crypto] (best : Block × U256) (block : Block) : Checked (Block × U256) := do
  let (bestBlock, bestDifficulty) := best
  let difficulty ← getTotalDifficulty block.header
  if difficulty > bestDifficulty then
    return (block, difficulty)
  else if difficulty = bestDifficulty then
    -- the lower hash wins
    if hashLt block.header.hash bestBlock.header.hash then
      return (block, bestDifficulty)
    else return (bestBlock, bestDifficulty)
  else return (bestBlock, bestDifficulty)

def selectLongestChain [Crypto] : List Block → Checked Block
  | [] => .error .slice
  | first :: rest => do
    let difficulty ← getTotalDifficulty first.header
    let (bestBlock, _) ← rest.foldlM preferBlock (first, difficulty)
    return bestBlock

theorem hashLt_irrefl (hash : H256) : ¬hashLt hash hash = true := by
  rw [hashLt, lex_eq_true_iff_lex]
  apply lex_irrefl
  intro byte
  simp

theorem hashLt_trans (h : hashLt first second = true)
    (h' : hashLt second third = true) : hashLt first third = true := by
  rw [hashLt, lex_eq_true_iff_lex] at h h' ⊢
  refine lex_trans ?_ h h'
  intro x y z hxy hyz
  simp only [decide_eq_true_eq] at hxy hyz ⊢
  exact UInt8.lt_trans hxy hyz

theorem eq_of_not_hashLt {hash other : H256} (h : ¬hashLt hash other = true)
    (h' : ¬hashLt other hash = true) : hash = other := by
  rw [hashLt, lex_eq_true_iff_lex] at h h'
  apply List.Vector.eq
  refine lex_trichotomous ?_ h' h
  intro x y hxy hyx
  simp only [decide_eq_true_eq, UInt8.not_lt] at hxy hyx
  exact UInt8.le_antisymm hyx hxy

theorem getTotalDifficulty_eq_ok : getTotalDifficulty header = .ok difficulty ↔
      difficulty.toNat = header.number.toNat * 1000000 := by
  have hmil : (1000000 : U256).toNat = 1000000 := rfl
  rw [getTotalDifficulty, U256.mul_eq_ok, hmil]

theorem getTotalDifficulty_lt_iff (h : getTotalDifficulty header = .ok difficulty)
    (h' : getTotalDifficulty header' = .ok difficulty') :
    difficulty < difficulty' ↔ header.number < header'.number := by
  rw [getTotalDifficulty_eq_ok] at h h'
  rw [BitVec.lt_def, BitVec.lt_def, h]
  omega

theorem exists_getTotalDifficulty (h : header.number.toNat * 1000000 < 2 ^ 256) :
    ∃ difficulty, getTotalDifficulty header = .ok difficulty :=
  ⟨.ofNat 256 (header.number.toNat * 1000000), getTotalDifficulty_eq_ok.mpr (U256.toNat_ofNat h)⟩

section
variable [Crypto] {blocks : List Block}

def Better (block other : Block) : Prop :=
  other.header.number < block.header.number ∨
    block.header.number = other.header.number ∧ hashLt block.header.hash other.header.hash = true

theorem Better.irrefl : ¬Better block block := by
  rintro (hnum | ⟨-, hhash⟩)
  · exact BitVec.lt_irrefl _ hnum
  · exact hashLt_irrefl _ hhash

theorem Better.trans (h : Better first second) (h' : Better second third) : Better first third := by
  obtain hnum | ⟨hnum, hhash⟩ := h
  · obtain hnum' | ⟨hnum', -⟩ := h'
    · exact .inl (BitVec.lt_trans hnum' hnum)
    · exact .inl (hnum' ▸ hnum)
  · obtain hnum' | ⟨hnum', hhash'⟩ := h'
    · exact .inl (hnum ▸ hnum')
    · exact .inr ⟨hnum.trans hnum', hashLt_trans hhash hhash'⟩

structure Best (blocks : List Block) (block : Block) : Prop where
  mem : block ∈ blocks
  not_better : ∀ other ∈ blocks, ¬Better other block

theorem Best.number_le (h : Best blocks best) (hoth : other ∈ blocks) :
    other.header.number ≤ best.header.number :=
  BitVec.not_lt.mp fun hlt => h.not_better other hoth (.inl hlt)

theorem Best.hash_le (h : Best blocks best) (hoth : other ∈ blocks)
    (hnum : other.header.number = best.header.number) :
    ¬hashLt other.header.hash best.header.hash = true :=
  fun hlt => h.not_better other hoth (.inr ⟨hnum, hlt⟩)

theorem Best.hash_eq (h : Best blocks block) (h' : Best blocks best) :
    block.header.hash = best.header.hash := by
  have hnum : block.header.number = best.header.number :=
    BitVec.le_antisymm (h'.number_le h.mem) (h.number_le h'.mem)
  exact eq_of_not_hashLt (h'.hash_le h.mem hnum) (h.hash_le h'.mem hnum.symm)

theorem Best.concat (h : Best blocks best) (block : Block) :
    (Better block best → Best (blocks ++ [block]) block) ∧
      (¬Better block best → Best (blocks ++ [block]) best) := by
  refine ⟨fun hbet => ⟨mem_append_right _ mem_cons_self, fun other hoth => ?_⟩,
    fun hbet => ⟨mem_append_left _ h.mem, fun other hoth => ?_⟩⟩
  · obtain hoth | hoth := mem_append.mp hoth
    · exact fun hoth' => h.not_better other hoth (hoth'.trans hbet)
    · cases mem_singleton.mp hoth
      exact Better.irrefl
  · obtain hoth | hoth := mem_append.mp hoth
    · exact h.not_better other hoth
    · cases mem_singleton.mp hoth
      exact hbet

theorem exists_preferBlock (hbest : getTotalDifficulty best.header = .ok difficulty)
    {difficulty' : U256} (hblk : getTotalDifficulty block.header = .ok difficulty')
    (h : Best blocks best) :
    ∃ next nextDifficulty, preferBlock (best, difficulty) block = .ok (next, nextDifficulty) ∧
      getTotalDifficulty next.header = .ok nextDifficulty ∧ Best (blocks ++ [block]) next := by
  have hgt := getTotalDifficulty_lt_iff hbest hblk
  have hless := getTotalDifficulty_lt_iff hblk hbest
  rw [preferBlock, hblk]
  dsimp only [bind, Except.bind]
  split_ifs with hlt heq hhash
  · exact ⟨block, difficulty', rfl, hblk, (h.concat block).1 (.inl (hgt.mp hlt))⟩
  · subst heq
    have hnum : block.header.number = best.header.number :=
      BitVec.le_antisymm (BitVec.not_lt.mp (mt hgt.mpr (BitVec.lt_irrefl _)))
        (BitVec.not_lt.mp (mt hless.mpr (BitVec.lt_irrefl _)))
    exact ⟨block, difficulty', rfl, hblk, (h.concat block).1 (.inr ⟨hnum, hhash⟩)⟩
  · refine ⟨best, difficulty, rfl, hbest, (h.concat block).2 ?_⟩
    rintro (hnum | ⟨-, hhash'⟩)
    · exact hlt (hgt.mpr hnum)
    · exact hhash hhash'
  · refine ⟨best, difficulty, rfl, hbest, (h.concat block).2 ?_⟩
    rintro (hnum | ⟨hnum, -⟩)
    · exact hlt (hgt.mpr hnum)
    · rw [getTotalDifficulty, hnum] at hblk
      exact heq (Except.ok.inj (hblk.symm.trans hbest))

theorem exists_foldlM_preferBlock (hbest : getTotalDifficulty best.header = .ok difficulty)
    (hrest : ∀ block ∈ rest, ∃ difficulty', getTotalDifficulty block.header = .ok difficulty')
    (h : Best blocks best) :
    ∃ res, rest.foldlM preferBlock (best, difficulty) = .ok res ∧ Best (blocks ++ rest) res.1 := by
  induction rest generalizing blocks best difficulty with
  | nil => exact ⟨_, rfl, (append_nil blocks).symm ▸ h⟩
  | cons block rest ih =>
    obtain ⟨difficulty', hblk⟩ := hrest block mem_cons_self
    obtain ⟨next, nextDifficulty, hpre, hnext, hcon⟩ := exists_preferBlock hbest hblk h
    obtain ⟨res, hres, hbest'⟩ :=
      ih hnext (fun block hmem => hrest block (mem_cons_of_mem _ hmem)) hcon
    refine ⟨res, ?_, ?_⟩
    · rw [foldlM_cons, hpre]
      exact hres
    · rwa [append_assoc] at hbest'

theorem exists_selectLongestChain (hne : blocks ≠ [])
    (hfits : ∀ block ∈ blocks, block.header.number.toNat * 1000000 < 2 ^ 256) :
    ∃ head, selectLongestChain blocks = .ok head ∧ Best blocks head := by
  obtain ⟨first, rest, rfl⟩ := exists_cons_of_ne_nil hne
  obtain ⟨difficulty, hfst⟩ := exists_getTotalDifficulty (hfits first mem_cons_self)
  have hbest : Best [first] first := by
    refine ⟨mem_cons_self, fun other hoth => ?_⟩
    cases mem_singleton.mp hoth
    exact Better.irrefl
  obtain ⟨⟨head, headD⟩, hhead, h⟩ := exists_foldlM_preferBlock hfst
    (fun block hmem => exists_getTotalDifficulty (hfits block (mem_cons_of_mem _ hmem))) hbest
  refine ⟨head, ?_, h⟩
  rw [selectLongestChain, hfst]
  dsimp only [bind, Except.bind]
  rw [hhead]
  rfl

/-- The head is a block of the list with the greatest number and, among those, the lowest hash. It
has the same hash for every order of the list. -/
theorem selectLongestChain_best (blocks : List Block) (hne : blocks ≠ [])
    (hfits : ∀ block ∈ blocks, block.header.number.toNat * 1000000 < 2 ^ 256) :
    ∃ head, selectLongestChain blocks = .ok head ∧ head ∈ blocks ∧
      (∀ block ∈ blocks, block.header.number ≤ head.header.number) ∧
      (∀ block ∈ blocks, block.header.number = head.header.number →
        ¬hashLt block.header.hash head.header.hash = true) ∧
      ∀ blocks', blocks'.Perm blocks →
        ∃ head', selectLongestChain blocks' = .ok head' ∧ head'.header.hash = head.header.hash := by
  obtain ⟨head, hhead, hbest⟩ := exists_selectLongestChain hne hfits
  refine ⟨head, hhead, hbest.mem, fun _ => hbest.number_le, fun _ => hbest.hash_le, ?_⟩
  intro blocks' hperm
  have hne' : blocks' ≠ [] := fun h => hne (perm_nil.mp (h ▸ hperm.symm))
  obtain ⟨head', hhead', hbest'⟩ :=
    exists_selectLongestChain hne' fun block hmem => hfits block (hperm.mem_iff.mp hmem)
  have hbest' : Best blocks head' :=
    ⟨hperm.mem_iff.mp hbest'.mem, fun other hoth =>
      hbest'.not_better other (hperm.mem_iff.mpr hoth)⟩
  exact ⟨head', hhead', hbest'.hash_eq hbest⟩

end

section
open Sized

def sampleBlocks : List Block :=
  [.new { Header.new with number := 1 }, .new { Header.new with number := 2 },
    .new { Header.new with number := 2, extraData := [0] }]

theorem selectLongestChain_sample :
    ∃ head, selectLongestChain sampleBlocks = .ok head ∧ head ∈ sampleBlocks ∧
      (∀ block ∈ sampleBlocks, block.header.number ≤ head.header.number) ∧
      (∀ block ∈ sampleBlocks, block.header.number = head.header.number →
        ¬hashLt block.header.hash head.header.hash = true) ∧
      ∀ blocks', blocks'.Perm sampleBlocks →
        ∃ head', selectLongestChain blocks' = .ok head' ∧
          head'.header.hash = head.header.hash :=
  selectLongestChain_best sampleBlocks (cons_ne_nil _ _) (by decide)

end

end ForkChoice

end EthereumRust.Consensus
