import EthereumRust.Engine.ForkChoice
import EthereumRust.Lib.Ancestry

/-!
# Which blocks are canonical (`crates/engine/src/forkchoice.rs`)

`is_canonical` walks from the given block up to the head, not from the head up to the given block:
it accepts the head and what descends from it, and refuses the ancestors of the head.
-/

namespace EthereumRust.Engine.ForkChoiceStore
open Rust

def canonicalTurn (self : ForkChoiceStore) (current : H256) : Loop.Turn H256 Bool :=
  if current ≠ H256.zero then
    if current = self.head then .done true
    else
      match self.blocks.lookup current with
      | some block => .next block.parentHash
      | none => .done false
  else .done false

def isCanonical (fuel : Nat) (self : ForkChoiceStore) (hash : H256) : Option Bool :=
  Loop.exec self.canonicalTurn fuel hash

def upOf (self : ForkChoiceStore) (hash : H256) : Option H256 :=
  if hash = H256.zero then none else self.parentOf hash

section
variable {s : ForkChoiceStore} {hash : H256}

theorem canonicalTurn_eq_next (h : s.canonicalTurn cur = .next par) : s.upOf cur = some par := by
  unfold canonicalTurn at h
  split_ifs at h with hzero hhead
  rw [upOf, if_neg hzero, parentOf]
  split at h
  · next block hblk =>
    cases h
    rw [hblk]
    rfl
  · cases h

theorem canonicalTurn_of_up (h : s.upOf cur = some par) (hhead : cur ≠ s.head) :
    s.canonicalTurn cur = .next par := by
  unfold upOf parentOf at h
  split_ifs at h with hzero
  obtain ⟨block, hblk, rfl⟩ := Option.map_eq_some_iff.mp h
  rw [canonicalTurn, if_pos hzero, if_neg hhead, hblk]

theorem canonicalTurn_eq_done_true :
    s.canonicalTurn cur = .done true ↔ cur = s.head ∧ cur ≠ H256.zero := by
  unfold canonicalTurn
  split_ifs with hzero hhead
  · exact ⟨fun _ => ⟨hhead, hzero⟩, fun _ => rfl⟩
  · split
    · simp [hhead]
    · simp [hhead]
  · simp [hzero]

theorem leaves_true_iff (hhead : s.head ≠ H256.zero) :
    Loop.Leaves s.canonicalTurn hash true ↔ Ancestry.Above s.upOf hash s.head := by
  constructor
  · intro h
    refine h.induct (fun cur => Ancestry.Above s.upOf cur s.head) ?_ ?_
    · intro cur hdone
      rw [(canonicalTurn_eq_done_true.mp hdone).1]
      exact .refl
    · intro cur par hturn hup
      exact .head (canonicalTurn_eq_next hturn) hup
  · intro h
    induction h using Relation.ReflTransGen.head_induction_on with
    | refl => exact .of_done (canonicalTurn_eq_done_true.mpr ⟨rfl, hhead⟩)
    | @head cur par hup _ ih =>
      by_cases hcur : cur = s.head
      · subst hcur
        exact .of_done (canonicalTurn_eq_done_true.mpr ⟨rfl, hhead⟩)
      · exact .of_next (canonicalTurn_of_up hup hcur) ih

theorem parentOf_of_upOf (h : s.upOf cur = some par) : s.parentOf cur = some par := by
  unfold upOf at h
  split_ifs at h
  exact h

theorem above_parentOf (h : Ancestry.Above s.upOf hash cur) :
    Ancestry.Above s.parentOf hash cur := by
  exact Relation.ReflTransGen.mono (fun _ _ hup => parentOf_of_upOf hup) _ _ h

end

/-- `is_canonical` returns, and it tells the head and its ancestors from the other blocks exactly
for the head and for the blocks that are neither above the head nor below it. -/
theorem isCanonical_correct_iff (s : ForkChoiceStore) (hash : H256)
    (hacy : Ancestry.Acyclic s.parentOf) (hhead : s.head ≠ H256.zero) :
    ∃ b, (∃ fuel, s.isCanonical fuel hash = some b) ∧
      ((b = true ↔ Ancestry.Above s.parentOf s.head hash) ↔
        hash = s.head ∨
          ¬Ancestry.Above s.parentOf s.head hash ∧
            ¬Ancestry.Above s.upOf hash s.head) := by
  obtain ⟨b, hb⟩ : Loop.Halts s.canonicalTurn hash := by
    refine Ancestry.halts_of_acyclic (fun cur => cur) hacy (fun cur par h => ?_) _
    exact parentOf_of_upOf (canonicalTurn_eq_next h)
  have hdown : b = true ↔ Ancestry.Above s.upOf hash s.head := by
    rw [← leaves_true_iff hhead]
    exact ⟨fun h => h ▸ hb, fun h => hb.unique h⟩
  refine ⟨b, Loop.leaves_iff_exec.mp hb, ?_⟩
  rw [hdown]
  constructor
  · intro hagr
    by_cases habv : Ancestry.Above s.parentOf s.head hash
    · exact .inl ((above_parentOf (hagr.mpr habv)).antisymm hacy habv)
    · exact .inr ⟨habv, fun hup => habv (hagr.mp hup)⟩
  · rintro (rfl | ⟨habv, hup⟩)
    · exact ⟨fun _ => .refl, fun _ => .refl⟩
    · exact ⟨fun h => absurd h hup, fun h => absurd h habv⟩

namespace Sample

def third : H256 := H256.ofU256 3

/-- Two blocks behind the first one, of which one is the head. -/
def fork : ForkChoiceStore :=
  { ((new.withBlock first H256.zero 1 1).withBlock second first 2 2).withBlock third first 2 2 with
    head := second }

theorem fork_acyclic : Ancestry.Acyclic fork.parentOf := by
  apply Ancestry.acyclic_of_rank fun hash => (U256.ofHash hash).toNat
  intro child par h
  obtain ⟨block, hblk, rfl⟩ := Option.map_eq_some_iff.mp h
  dsimp only [fork, withBlock] at hblk
  rw [HashMap.lookup_insert_ite, HashMap.lookup_insert_ite, HashMap.lookup_insert_ite] at hblk
  split_ifs at hblk with hthi hsec hfst
  · cases hblk
    subst hthi
    decide
  · cases hblk
    subst hsec
    decide
  · cases hblk
    subst hfst
    decide
  · cases hblk

end Sample

open Sample

theorem isCanonical_correct_fork : (∃ fuel, fork.isCanonical fuel second = some true) ∧
    ∃ fuel, fork.isCanonical fuel third = some false := by
  have hhead : fork.head ≠ H256.zero := by decide
  obtain ⟨b, hb, hiff⟩ := isCanonical_correct_iff fork second fork_acyclic hhead
  obtain ⟨b', hb', hiff'⟩ := isCanonical_correct_iff fork third fork_acyclic hhead
  have hside : ¬Ancestry.Above fork.parentOf fork.head third := by
    rw [Ancestry.above_of_parent (by decide : fork.parentOf fork.head = some first),
      Ancestry.above_of_parent (by decide : fork.parentOf first = some H256.zero),
      Ancestry.above_of_none (by decide)]
    decide
  have hside' : ¬Ancestry.Above fork.upOf third fork.head := by
    rw [Ancestry.above_of_parent (by decide : fork.upOf third = some first),
      Ancestry.above_of_parent (by decide : fork.upOf first = some H256.zero),
      Ancestry.above_of_none (by decide)]
    decide
  have htrue : b = true := (hiff.mpr (.inl rfl)).mpr .refl
  have hfal : b' = false := by
    rw [← Bool.not_eq_true, hiff'.mpr (.inr ⟨hside, hside'⟩)]
    exact hside
  exact ⟨htrue ▸ hb, hfal ▸ hb'⟩

/-- The parent of the head is not canonical. -/
theorem parent_not_canonical : Ancestry.Above fork.parentOf fork.head first ∧
    fork.isCanonical 3 first = some false :=
  ⟨.single (show fork.parentOf second = some first by decide), by decide⟩

end EthereumRust.Engine.ForkChoiceStore
