import EthereumRust.Parallel.Executor

/-!
# What the conflict detector finds (`crates/parallel-execution`: `conflict_detector.rs`)

Two access sets interfere when one of them writes a slot that the other reads or writes, or creates
or deletes an account that the other uses in any way. The detector looks for the first kind, and for
accounts that one of the two creates and the other creates or deletes. It misses an account that
both delete, and an account that one creates or deletes while the other uses its slots.
-/

namespace EthereumRust.Parallel
open Rust

namespace AccessSet

def Reads (self : AccessSet) (address : Address) (slot : H256) : Prop :=
  ∃ slots ∈ self.reads.lookup address, slot ∈ slots

def Writes (self : AccessSet) (address : Address) (slot : H256) : Prop :=
  ∃ slots ∈ self.writes.lookup address, slot ∈ slots

def WriteConflict (set1 set2 : AccessSet) : Prop :=
  ∃ address slot, set1.Writes address slot ∧ (set2.Reads address slot ∨ set2.Writes address slot)

def SlotConflict (set1 set2 : AccessSet) : Prop :=
  ∃ address slot, (address ∈ set1.creates ∨ address ∈ set1.deletes) ∧
    (set2.Reads address slot ∨ set2.Writes address slot)

def CreateConflict (set1 set2 : AccessSet) : Prop :=
  ∃ address ∈ set1.creates, address ∈ set2.creates ∨ address ∈ set2.deletes

def DeleteConflict (set1 set2 : AccessSet) : Prop :=
  ∃ address ∈ set1.deletes, address ∈ set2.creates ∨ address ∈ set2.deletes

/-- `set1` writes a slot that `set2` reads or writes, or creates or deletes an account that `set2`
creates, deletes, or reads or writes a slot of. -/
def Interferes (set1 set2 : AccessSet) : Prop :=
  WriteConflict set1 set2 ∨ CreateConflict set1 set2 ∨ DeleteConflict set1 set2 ∨
    SlotConflict set1 set2

/-- The conflicts that `conflicts_with` looks for. -/
def Detected (set1 set2 : AccessSet) : Prop :=
  WriteConflict set1 set2 ∨ CreateConflict set1 set2

/-- The conflicts that it does not look for. -/
def Undetected (set1 set2 : AccessSet) : Prop :=
  (∃ address ∈ set1.deletes, address ∈ set2.deletes) ∨ SlotConflict set1 set2

theorem Interferes.of_undetected (h : Undetected set1 set2) : Interferes set1 set2 := by
  obtain ⟨addr, h1, h2⟩ | hslot := h
  · exact .inr (.inr (.inl ⟨addr, h1, .inr h2⟩))
  · exact .inr (.inr (.inr hslot))

theorem Interferes.detected_or_undetected (h : Interferes set1 set2) :
    (Detected set1 set2 ∨ Detected set2 set1) ∨ Undetected set1 set2 := by
  obtain hwr | hcre | ⟨addr, h1, hcre | hdel⟩ | hslot := h
  · exact .inl (.inl (.inl hwr))
  · exact .inl (.inl (.inr hcre))
  · exact .inl (.inr (.inr ⟨addr, hcre, .inr h1⟩))
  · exact .inr (.inl ⟨addr, h1, hdel⟩)
  · exact .inr (.inr hslot)

end AccessSet

theorem exists_entries_iff {β γ : Type} {map1 : HashMap Address β} {map2 : HashMap Address γ}
    {in1 : H256 → β → Prop} {in2 : H256 → γ → Prop} :
    (∃ addr ∈ map1, ∃ x ∈ map1.lookup addr, ∃ y ∈ map2.lookup addr,
      ∃ slot, in1 slot x ∧ in2 slot y) ↔
    ∃ addr slot, (∃ x ∈ map1.lookup addr, in1 slot x) ∧
      ∃ y ∈ map2.lookup addr, in2 slot y := by
  constructor
  · rintro ⟨addr, -, x, hx, y, hy, slot, h1, h2⟩
    exact ⟨addr, slot, ⟨x, hx, h1⟩, y, hy, h2⟩
  · rintro ⟨addr, slot, ⟨x, hx, h1⟩, y, hy, h2⟩
    exact ⟨addr, Finmap.mem_of_lookup_eq_some hx, x, hx, y, hy, slot, h1, h2⟩

theorem conflicts_iff : conflicts set1 set2 = true ↔ set1.Detected set2 ∨ set2.Detected set1 := by
  have hread : _ ↔ ∃ addr slot, set1.Reads addr slot ∧ set2.Writes addr slot := exists_entries_iff
  have hwr : _ ↔ ∃ addr slot, set1.Writes addr slot ∧ set2.Reads addr slot := exists_entries_iff
  have hwri : _ ↔ ∃ addr slot, set1.Writes addr slot ∧ set2.Writes addr slot := exists_entries_iff
  unfold conflicts
  simp only [Bool.or_eq_true, decide_eq_true_eq, Finmap.mem_keys, Finset.not_disjoint_iff]
  rw [hread, hwr, hwri]
  constructor
  · rintro (((((⟨addr, slot, h1, h2⟩ | ⟨addr, slot, h1, h2⟩) | ⟨addr, slot, h1, h2⟩) |
      ⟨addr, h1, h2⟩) | ⟨addr, h1, h2⟩) | ⟨addr, h1, h2⟩)
    · exact .inr (.inl ⟨addr, slot, h2, .inl h1⟩)
    · exact .inl (.inl ⟨addr, slot, h1, .inl h2⟩)
    · exact .inl (.inl ⟨addr, slot, h1, .inr h2⟩)
    · exact .inl (.inr ⟨addr, h1, .inr h2⟩)
    · exact .inr (.inr ⟨addr, h2, .inr h1⟩)
    · exact .inl (.inr ⟨addr, h1, .inl h2⟩)
  · rintro ((⟨addr, slot, h1, h2 | h2⟩ | ⟨addr, h1, h2 | h2⟩) |
      ⟨addr, slot, h2, h1 | h1⟩ | ⟨addr, h2, h1 | h1⟩)
    · exact .inl (.inl (.inl (.inl (.inr ⟨addr, slot, h1, h2⟩))))
    · exact .inl (.inl (.inl (.inr ⟨addr, slot, h1, h2⟩)))
    · exact .inr ⟨addr, h1, h2⟩
    · exact .inl (.inl (.inr ⟨addr, h1, h2⟩))
    · exact .inl (.inl (.inl (.inl (.inl ⟨addr, slot, h1, h2⟩))))
    · exact .inl (.inl (.inl (.inr ⟨addr, slot, h1, h2⟩)))
    · exact .inr ⟨addr, h1, h2⟩
    · exact .inl (.inr ⟨addr, h1, h2⟩)

/-- The detector is symmetric, and it finds all interference between two access sets exactly when
they do not interfere only by deleting the same account, or by one creating or deleting an account
whose slots the other uses. -/
theorem conflicts_complete_iff (set1 set2 : AccessSet) :
    conflicts set1 set2 = conflicts set2 set1 ∧
      ((set1.Interferes set2 ∨ set2.Interferes set1 → conflicts set1 set2 = true) ↔
        (set1.Undetected set2 ∨ set2.Undetected set1 →
          set1.Detected set2 ∨ set2.Detected set1)) := by
  refine ⟨?_, ?_⟩
  · rw [Bool.eq_iff_iff, conflicts_iff, conflicts_iff, or_comm]
  rw [conflicts_iff]
  constructor
  · intro h hund
    exact h (hund.imp .of_undetected .of_undetected)
  · rintro h (h1 | h2)
    · obtain hdet | hund := h1.detected_or_undetected
      · exact hdet
      · exact h (.inl hund)
    · obtain hdet | hund := h2.detected_or_undetected
      · exact hdet.symm
      · exact h (.inr hund)

/-- One set deletes an account, the other writes a slot of it. -/
theorem delete_write_not_conflicts : ∃ set1 set2 : AccessSet,
    set1.Interferes set2 ∧ conflicts set1 set2 = false := by
  refine ⟨{ AccessSet.new with deletes := {Address.zero} },
    AccessSet.new.addWrite Address.zero H256.zero H256.zero, ?_, by decide +kernel⟩
  exact .inr (.inr (.inr ⟨Address.zero, H256.zero, .inr (Finset.mem_singleton_self _),
    .inr ⟨_, rfl, by decide +kernel⟩⟩))

end EthereumRust.Parallel
