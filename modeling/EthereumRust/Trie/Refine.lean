import EthereumRust.Trie.Trie

/-!
# The trie as a radix tree

`toNode` is the node for a radix tree, with references as `NodeRef::from_node` builds them. Where
every reference resolves to the node it was built from, the operations on nodes are those on trees.
-/

namespace EthereumRust.Trie
open Rust Radix List Function Nibbles

section
variable [Crypto]

def toNode : Tree 16 Bytes → Node
  | .empty => .empty
  | .leaf key value => .leaf key value
  | .ext key child => .extension key (.fromNode (toNode child))
  | .branch children value =>
    .branch
      (fun i => if (children i).isEmpty then none else some (.fromNode (toNode (children i)))) value

def toChild (t : Tree 16 Bytes) : Option NodeRef :=
  if t.isEmpty then none else some (.fromNode (toNode t))

def toParts (fan : Tree.Fan 16 Bytes) : BranchParts := (toChild ∘ fan.1, fan.2)

theorem toNode_branch : toNode (.branch cs value) = .branch (toChild ∘ cs) value := rfl

theorem toChild_of_ne (h : t ≠ .empty) : toChild t = some (.fromNode (toNode t)) := by
  cases t with
  | empty => exact (h rfl).elim
  | _ => rfl

theorem isEmpty_toNode : (toNode t).isEmpty = t.isEmpty := by
  cases t <;> rfl

theorem toParts_place : toParts (fan.place rest value) = (toParts fan).putValue rest value := by
  cases rest with
  | nil => rfl
  | cons nibble rest =>
    rw [toParts, Tree.Fan.place, comp_update]
    rfl

theorem toParts_hang (ht : t.isBranch = true) :
    toParts (Tree.Fan.nil.hang rest t) =
      BranchParts.new.putExtension rest (.fromNode (toNode t)) := by
  have hne : t ≠ .empty := by
    rintro rfl
    cases ht
  match rest with
  | [] => rfl
  | [nibble] =>
    rw [toParts, Tree.Fan.hang, comp_update, Tree.extend, if_pos rfl, toChild_of_ne hne]
    rfl
  | nibble :: next :: rest =>
    rw [toParts, Tree.Fan.hang, comp_update, Tree.extend, if_neg (cons_ne_nil _ _)]
    rfl

theorem toNode_extend : toNode (Tree.extend path fan.tree) = (toParts fan).behind path := by
  cases path with
  | nil => rfl
  | cons nibble path => rfl

variable (mode : Call.Answering TrieError)

def Resolves (load : H256 → Call TrieError Node) (t : Tree 16 Bytes) : Prop :=
  mode.Answers (resolveNodeRef load (.fromNode (toNode t))) (toNode t)

variable {mode}

theorem Resolves.slot (h : Resolves mode load t) :
    mode.Answers (resolveSlot load (toChild t)) (toNode t) := by
  cases t with
  | empty => exact mode.ok _
  | _ => exact h

theorem resolves_of_error (h : ∀ hash, ∃ e, load hash = .error e) (t : Tree 16 Bytes) :
    Resolves Call.returnsOnly load t := by
  intro n hn
  rw [NodeRef.fromNode] at hn
  split at hn
  · exact (Except.ok.inj hn).symm
  · obtain ⟨e, he⟩ := h (toNode t).hash
    rw [resolveNodeRef, he] at hn
    cases hn

section
variable {key : Nibbles} {frames : Nat}

omit [Crypto] in
theorem exists_frame (h : key.length < frames) : ∃ rest, frames = rest + 1 :=
  Nat.exists_eq_succ_of_ne_zero (Nat.ne_zero_of_lt h)

omit [Crypto] in
theorem length_drop_lt (hk : k ≠ []) (hpath : k <+: key)
    (h : key.length < frames + 1) : (key.drop k.length).length < frames := by
  have hpos := length_pos_of_ne_nil hk
  have hlen := hpath.length_le
  rw [length_drop]
  omega

/-- `get_at_node` on the node of a tree is `get` on the tree. -/
theorem getAtNode_toNode (hc : t.Canonical) (hload : t.Below (Resolves mode load))
    (hfrs : key.length < frames) :
    mode.Answers (getAtNode load frames (toNode t) key) (t.get key) := by
  induction t generalizing key frames with (obtain ⟨frames, rfl⟩ := exists_frame hfrs)
  | empty =>
    exact mode.ok _
  | leaf k v =>
    exact mode.ok _
  | ext k c ih =>
    rw [toNode, getAtNode, Tree.get_ext]
    by_cases hk : k <+: key
    · rw [if_pos hk, commonPrefixLen_eq_length.mpr hk, if_pos rfl]
      exact mode.bind hload.1 (ih hc.2.2 hload.2 (length_drop_lt hc.1 hk hfrs))
    · rw [if_neg hk, if_neg (mt commonPrefixLen_eq_length.mp hk)]
      exact mode.ok _
  | branch cs v ih =>
    cases key with
    | nil => exact mode.ok _
    | cons nibble key =>
      rw [toNode_branch, getAtNode, Tree.get_branch_cons, comp_apply]
      by_cases hne : cs nibble = .empty
      · rw [hne]
        exact mode.ok _
      · rw [toChild_of_ne hne]
        exact mode.bind (hload nibble).1
          (ih nibble (hc.1 nibble) (hload nibble).2 (Nat.lt_of_succ_lt_succ hfrs))

/-- `insert_at_node` on the node of a tree is `insert` on the tree. -/
theorem insertAtNode_toNode (hc : t.Canonical) (hload : t.Below (Resolves mode load))
    (hfrs : key.length < frames) :
    mode.Answers (insertAtNode load frames (toNode t) key value) (toNode (t.insert key value)) := by
  induction t generalizing key frames with (obtain ⟨frames, rfl⟩ := exists_frame hfrs)
  | empty =>
    exact mode.ok _
  | leaf k v =>
    rw [toNode, insertAtNode, Tree.insert]
    by_cases hk : k = key
    · subst hk
      have hcom := commonPrefixLen_eq_length.mpr (prefix_refl k)
      rw [if_pos rfl, if_pos ⟨hcom, hcom⟩]
      exact mode.ok _
    · have hcom : ¬(commonPrefixLen k key = k.length ∧
          commonPrefixLen k key = key.length) := by
        rintro ⟨h₁, h₂⟩
        apply hk
        exact (commonPrefixLen_eq_length.mp h₁).eq_of_length (h₁.symm.trans h₂)
      rw [if_neg hk, if_neg hcom, toNode_extend, toParts_place, toParts_place, commonPrefixLen_eq]
      exact mode.ok _
  | ext k c ih =>
    rw [toNode, insertAtNode, Tree.insert]
    by_cases hk : k <+: key
    · rw [if_pos hk, commonPrefixLen_eq_length.mpr hk, if_pos rfl]
      apply mode.bind hload.1
      exact mode.bind (ih hc.2.2 hload.2 (length_drop_lt hc.1 hk hfrs)) (mode.ok _)
    · rw [if_neg hk, if_neg (mt commonPrefixLen_eq_length.mp hk), toNode_extend,
        toParts_place, toParts_hang hc.2.1, commonPrefixLen_eq]
      exact mode.ok _
  | branch cs v ih =>
    cases key with
    | nil => exact mode.ok _
    | cons nibble key =>
      rw [toNode_branch, Tree.insert, toNode_branch, comp_update,
        toChild_of_ne (Tree.insert_ne_empty _ _ _)]
      apply mode.bind (hload nibble).1.slot
      have hch := ih nibble (hc.1 nibble) (hload nibble).2 (Nat.lt_of_succ_lt_succ hfrs)
      exact mode.bind hch (mode.ok _)

theorem nonEmptyChildren_toChild :
    nonEmptyChildren (toChild ∘ cs) =
      (Tree.occupied cs).map fun i => (i, .fromNode (toNode (cs i))) := by
  unfold nonEmptyChildren Tree.occupied
  induction finRange 16 with
  | nil => rfl
  | cons i rest ih =>
    rw [filterMap_cons, ih]
    cases hi : cs i <;> simp [toChild, hi, Tree.isEmpty]

theorem tryCompactBranch_toChild
    (hload : ∀ i, Tree.occupied cs = [i] → v = none → Resolves mode load (cs i)) :
    mode.Answers (tryCompactBranch load (toChild ∘ cs) v) (toNode (Tree.compact cs v)) := by
  unfold tryCompactBranch Tree.compact
  rw [nonEmptyChildren_toChild]
  rcases hocc : Tree.occupied cs with _ | ⟨i, _ | ⟨j, rest⟩⟩
  · cases v <;> exact mode.ok _
  · cases v with
    | some v => exact mode.ok _
    | none =>
      have hne : cs i ≠ .empty := Tree.mem_occupied.mp (by simp [hocc])
      refine mode.bind (hload i hocc rfl) ?_
      dsimp only
      cases hi : cs i with
      | empty => exact (hne hi).elim
      | _ => exact mode.ok _
  · cases v <;> exact mode.ok _

theorem collapseExtension_toNode : collapseExtension k (toNode t) = toNode (Tree.join k t) := by
  cases t <;> rfl

/-- `delete_at_node` on the node of a tree is `delete` on the tree. -/
theorem deleteAtNode_toNode (hc : t.Canonical) (hload : t.Below (Resolves mode load))
    (hfrs : key.length < frames) :
    mode.Answers (deleteAtNode load frames (toNode t) key)
      (toNode (t.delete key).1, (t.delete key).2) := by
  induction t generalizing key frames with (obtain ⟨frames, rfl⟩ := exists_frame hfrs)
  | empty =>
    exact mode.ok _
  | leaf k v =>
    rw [toNode, deleteAtNode, Tree.delete]
    split <;> exact mode.ok _
  | ext k c ih =>
    rw [toNode, deleteAtNode, Tree.delete]
    dsimp only
    by_cases hk : k <+: key
    · rw [if_pos hk, commonPrefixLen_eq_length.mpr hk, if_pos rfl]
      apply mode.bind hload.1
      apply mode.bind (ih hc.2.2 hload.2 (length_drop_lt hc.1 hk hfrs))
      rw [collapseExtension_toNode]
      cases (c.delete (key.drop k.length)).2 <;> exact mode.ok _
    · rw [if_neg hk, if_neg (mt commonPrefixLen_eq_length.mp hk)]
      exact mode.ok _
  | branch cs v ih =>
    cases key with
    | nil =>
      cases v with
      | none => exact mode.ok _
      | some v =>
        exact mode.bind (tryCompactBranch_toChild fun i _ _ => (hload i).1) (mode.ok _)
    | cons nibble key =>
      rw [toNode_branch, deleteAtNode, Tree.delete, comp_apply]
      by_cases hne : cs nibble = .empty
      · rw [hne]
        exact mode.ok _
      · rw [toChild_of_ne hne]
        apply mode.bind (hload nibble).1
        apply mode.bind (ih nibble (hc.1 nibble) (hload nibble).2 (Nat.lt_of_succ_lt_succ hfrs))
        dsimp only
        cases (cs nibble).delete key with
        | mk rest deleted =>
          cases deleted with
          | false => exact mode.ok _
          | true =>
            have hslot : (if (toNode rest).isEmpty then none else some (.fromNode (toNode rest))) =
                toChild rest := by
              rw [isEmpty_toNode]
              rfl
            rw [hslot, ← comp_update]
            refine mode.bind (tryCompactBranch_toChild ?_) (mode.ok _)
            -- the child that is left was there before
            rintro i hocc rfl
            have hi := hc.2.ne_of_occupied hocc
            rw [update_of_ne hi]
            exact (hload i).1

end

end

end EthereumRust.Trie
