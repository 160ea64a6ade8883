import EthereumRust.Verkle.Tree
import EthereumRust.Lib.WordMap

/-!
# What a Verkle tree holds

A node stands for a map from the bytes behind it to values (`contents`). In a tree that insertions
have built, each path from the root uses up the 32 bytes of a key (`WellFormed`).

No deletion changes the contents: a leaf leaves its removal to its parent, which is an extension,
and an extension never removes its suffix tree.
-/

namespace EthereumRust.Verkle

open Rust WordMap List Function

def slotCommitment : Option VerkleNode → Commitment
  | some node => node.commitment
  | none => .default

def branchData (children : UInt8 → Option VerkleNode) : Bytes :=
  allBytes.flatMap fun i => (slotCommitment (children i)).value

def nodeData : VerkleNode → Bytes
  | .extension stem suffixTree _ => stem ++ (slotCommitment suffixTree).value
  | .branch children value _ => branchData children ++ value.getD []
  | .leaf value _ => value

namespace VerkleCommitment

def basis (self : VerkleCommitment) : List Bytes := (self.ipaParams.map IPAParams.basis).getD []

section
variable [Crypto] (self : VerkleCommitment)

def digest (data : Bytes) : Commitment :=
  match self.config.commitmentScheme with
  | .ipa => ⟨combineRows self.basis data, .ipa⟩
  | .kzg => ⟨(keccak256 data).toList, .kzg⟩

def Ready : Prop := ∀ data, self.commitTo data = .ok (self.digest data)

def sealedExtension (stem : Bytes) (suffixTree : Option VerkleNode) : VerkleNode :=
  .extension stem suffixTree (self.digest (stem ++ (slotCommitment suffixTree).value))

def sealedBranch (children : UInt8 → Option VerkleNode) : VerkleNode :=
  .branch children none (self.digest (branchData children))

def sealedLeaf (value : Bytes) : VerkleNode := .leaf value (self.digest value)

end

section
variable [Crypto] {self : VerkleCommitment}

theorem ready_of_new [Build] {cfg : VerkleConfig} (h : new cfg = .ok self) : self.Ready := by
  intro data
  rw [new] at h
  cases hsch : cfg.commitmentScheme with
  | ipa =>
    rw [hsch] at h
    obtain ⟨params, -, h⟩ := h.of_bind
    cases h
    simp [commitTo, digest, hsch, computeIpaCommitment, basis]
  | kzg =>
    rw [hsch] at h
    cases h
    simp [commitTo, digest, hsch, computeKzgCommitment]

theorem computeNodeCommitment_eq :
    self.computeNodeCommitment node = self.commitTo (nodeData node) := by
  cases node with
  | extension stem suf _ =>
    cases suf with
    | none => rfl
    | some => rfl
  | branch cs value _ =>
    rw [computeNodeCommitment, computeBranchCommitment, flatMap_map]
    rfl
  | leaf => rfl

theorem Ready.updateCommitment_eq (h : self.Ready) :
    self.updateCommitment node = .ok (node.setCommitment (self.digest (nodeData node))) := by
  rw [updateCommitment, computeNodeCommitment_eq, h]
  rfl

theorem Ready.updateExtension (h : self.Ready) :
    self.updateCommitment (.extension stem suf c) =
      .ok (self.sealedExtension stem suf) := h.updateCommitment_eq

theorem Ready.updateBranch (h : self.Ready) :
    self.updateCommitment (.branch cs none c) = .ok (self.sealedBranch cs) := by
  rw [h.updateCommitment_eq, nodeData, Option.getD_none, append_nil]
  rfl

theorem Ready.updateLeaf (h : self.Ready) :
    self.updateCommitment (.leaf value c) = .ok (self.sealedLeaf value) := h.updateCommitment_eq

end

end VerkleCommitment

namespace VerkleNode

mutual

def contents : VerkleNode → Bytes → Option Bytes
  | extension stem suffixTree _ => under stem (slotContents suffixTree)
  | branch children value _ => fork value fun i => slotContents (children i)
  | leaf value _ => only value

def slotContents : Option VerkleNode → Bytes → Option Bytes
  | none => void
  | some node => contents node

end

inductive WellFormed : Nat → VerkleNode → Prop where
  | vacant : n = stem.length + 1 → WellFormed n (.extension stem none c)
  | value : n = stem.length → WellFormed n (.extension stem (some (.leaf v c')) c)
  | fork : n = stem.length + 1 + m → (∀ i child, children i = some child → WellFormed m child) →
    WellFormed n (.extension stem (some (.branch children none c')) c)

theorem exists_cons_of_stem {stem path : Bytes} (hstem : stem <+: path)
    (hlen : path.length = stem.length + 1 + m) :
    ∃ i rest, path = stem ++ i :: rest ∧ rest.length = m := by
  obtain ⟨rest, rfl⟩ := hstem
  rw [length_append, add_assoc, Nat.add_left_cancel_iff, add_comm] at hlen
  obtain ⟨i, rest, rfl⟩ := exists_cons_of_length_eq_add_one hlen
  exact ⟨i, rest, rfl, Nat.succ.inj hlen⟩

section
variable {n : Nat} {stem rest old new : Bytes} {a i : UInt8} {node child : VerkleNode}
  {suf : Option VerkleNode} {cs : UInt8 → Option VerkleNode}
  {c c' : Commitment}

theorem contents_branch : contents (.branch cs value c) = fork value (slotContents ∘ cs) := by
  rfl

theorem contents_newPath : contents (.newPath stem value) = under stem (only value) := by
  rw [newPath, contents, slotContents, newLeaf, contents]

theorem contents_newPath_update (h : slot = none) (stem value : Bytes) :
    contents (.newPath stem value) = update (slotContents slot) stem (some value) := by
  rw [contents_newPath, under_only, h, slotContents]

theorem wellFormed_newPath : WellFormed stem.length (.newPath stem value) := .value rfl

theorem WellFormed.of_split (h : WellFormed (p.length + 1 + m) (.extension (p ++ a :: old) suf c)) :
    WellFormed m (.extension old suf .default) := by
  have hlen : (p ++ a :: old).length = p.length + 1 + old.length := by
    simp only [length_append, length_cons]
    omega
  cases h with
  | vacant hn => exact .vacant (by omega)
  | value hn => exact .value (by omega)
  | fork hn hchs => exact .fork (by omega) hchs

theorem children_update {P : VerkleNode → Prop} (hchs : ∀ j child, cs j = some child → P child)
    (h : ∀ child, slot = some child → P child) (j : UInt8) (child : VerkleNode)
    (hj : update cs i slot j = some child) : P child := by
  by_cases hji : j = i
  · subst hji
    rw [update_self] at hj
    exact h child hj
  · rw [update_of_ne hji] at hj
    exact hchs j child hj

theorem children_add {P : VerkleNode → Prop} (hchs : ∀ j child, cs j = some child → P child)
    (h : P node) (j : UInt8) (child : VerkleNode) (hj : update cs i (some node) j = some child) :
    P child := by
  refine children_update hchs ?_ j child hj
  rintro _ ⟨⟩
  exact h

theorem children_none {P : VerkleNode → Prop} (j : UInt8) (child : VerkleNode)
    (hj : (fun _ : UInt8 => (none : Option VerkleNode)) j = some child) : P child := nomatch hj

theorem contents_fork :
    contents (.extension stem (some (.branch cs none c')) c) =
      under stem (fork none (slotContents ∘ cs)) := by
  rw [contents, slotContents, contents_branch]

theorem contents_fork_update (h : node.contents = update (slotContents (cs i)) rest v) :
    contents (.extension stem (some (.branch (update cs i (some node)) none c')) c) =
      update (under stem (fork none (slotContents ∘ cs))) (stem ++ i :: rest) v := by
  rw [contents_fork, comp_update, slotContents, h, ← under_update, ← fork_update]
  rfl

end

end VerkleNode

theorem commonPrefix_append : commonPrefix stem (stem ++ rest) = stem.length := by
  induction stem with
  | nil => rfl
  | cons a stem ih => simpa [commonPrefix] using ih

theorem commonPrefix_of_ne (hne : a ≠ b) :
    commonPrefix (p ++ a :: old) (p ++ b :: new) = p.length := by
  induction p with
  | nil => simp [commonPrefix, hne]
  | cons a p ih => simpa [commonPrefix] using ih

theorem splitExtension_eq {p old new : Bytes} (hkey : Remains key depth (p ++ b :: new)) :
    splitExtension (p ++ a :: old) suf c key value depth p.length =
      .ok (.extension p (some (.branch (update (update (fun _ => none)
        a (some (.extension old suf .default))) b (some (.newPath new value))) none
        .default)) c) := by
  have hold : Remains (p ++ a :: old) p.length (a :: old) := ⟨p, rfl, rfl⟩
  have hstem : slice (p ++ a :: old) 0 p.length = .ok p := by
    rw [slice_eq_ok]
    simp
  have hlt : p.length < (p ++ a :: old).length := by simp
  simp only [splitExtension, hstem, if_pos hlt, hold.byteAt_eq, hold.next.slice_eq,
    hkey.append.byteAt_eq, hkey.append.next.slice_eq]
  rfl

section
variable [Crypto] {engine : VerkleCommitment}

inductive Inserts (engine : VerkleCommitment) (value : Bytes) :
    VerkleNode → Bytes → VerkleNode → Prop where
  /-- The first insertion into a tree, if it does not split the path of zeros. -/
  | fill : Inserts engine value (.extension stem none c) (stem ++ i :: rest)
      (engine.sealedExtension stem (some (engine.sealedBranch
        (Function.update (fun _ => none) i (some (.newPath rest value))))))
  | replace : Inserts engine value (.extension stem (some (.leaf old c')) c) stem
      (engine.sealedExtension stem (some (engine.sealedLeaf value)))
  | add : children i = none →
    Inserts engine value (.extension stem (some (.branch children none c')) c) (stem ++ i :: rest)
      (engine.sealedExtension stem (some (engine.sealedBranch
        (Function.update children i (some (.newPath rest value))))))
  | descend : children i = some child → Inserts engine value child rest child' →
    Inserts engine value (.extension stem (some (.branch children none c')) c) (stem ++ i :: rest)
      (engine.sealedExtension stem (some (engine.sealedBranch
        (Function.update children i (some child')))))
  /-- The branch and its two children are not committed to. -/
  | split : a ≠ b → Inserts engine value (.extension (p ++ a :: old) suffixTree c) (p ++ b :: new)
      (engine.sealedExtension p (some (.branch (Function.update (Function.update (fun _ => none)
        a (some (.extension old suffixTree .default))) b (some (.newPath new value)))
        none .default)))

open VerkleNode

variable {n : Nat} {key path value : Bytes} {depth : Nat} {node node' : VerkleNode}

section
variable (h : Inserts engine value node path node')
include h

theorem Inserts.contents_eq : node'.contents = update node.contents path (some value) := by
  induction h with
  | @fill stem c i rest =>
    have hnew := contents_newPath_update (rfl : (none : Option VerkleNode) = none) rest value
    rw [contents, slotContents, under_void]
    rw [VerkleCommitment.sealedExtension, VerkleCommitment.sealedBranch, contents_fork_update hnew]
    rw [← under_void, ← fork_void]
    rfl
  | @replace stem old c' c =>
    have honly : update (only old) [] (some value) = (only value : Bytes → Option Bytes) :=
      update_idem ..
    rw [VerkleCommitment.sealedExtension, VerkleCommitment.sealedLeaf, contents, slotContents,
      contents, contents, slotContents, contents, ← honly, under_update, append_nil]
  | add hnone =>
    rw [contents_fork]
    exact contents_fork_update (contents_newPath_update hnone _ value)
  | descend hsome _ ih =>
    exact contents_fork_update (by rw [ih, hsome, slotContents])
  | split hne =>
    rw [VerkleCommitment.sealedExtension, contents_fork, comp_update, comp_update]
    exact under_fork hne ..

theorem Inserts.commitment_eq : node'.commitment = engine.digest (nodeData node') := by
  cases h with
  | fill => rfl
  | replace => rfl
  | add => rfl
  | descend => rfl
  | split => rfl

theorem Inserts.wellFormed (hnode : WellFormed path.length node) :
    WellFormed path.length node' := by
  have hlen (stem : Bytes) (i : UInt8) (rest : Bytes) :
      (stem ++ i :: rest).length = stem.length + 1 + rest.length := by
    simp only [length_append, length_cons]
    omega
  induction h with
  | fill =>
    exact .fork (hlen ..) (children_add children_none (wellFormed_newPath ..))
  | replace => exact .value rfl
  | add =>
    cases hnode with
    | fork hn hchs =>
      obtain rfl := add_left_cancel (hn.symm.trans (hlen ..))
      exact .fork hn (children_add hchs (wellFormed_newPath ..))
  | descend hsome _ ih =>
    cases hnode with
    | fork hn hchs =>
      obtain rfl := add_left_cancel (hn.symm.trans (hlen ..))
      exact .fork hn (children_add hchs (ih (hchs _ _ hsome)))
  | split =>
    rw [hlen] at hnode ⊢
    refine .fork rfl (children_add (children_add children_none ?_) (wellFormed_newPath ..))
    exact hnode.of_split

end

open VerkleCommitment

section
variable (hrdy : engine.Ready)
include hrdy

theorem insertRecursive_split (hkey : Remains key depth path) (hle : stem.length ≤ path.length)
    (hstem : ¬stem <+: path) :
    ∃ node', engine.insertRecursive (.extension stem suf c) key value depth = .ok node' ∧
      Inserts engine value (.extension stem suf c) path node' := by
  obtain ⟨p, a, old, b, new, rfl, rfl, hne⟩ := exists_divergence hstem hle
  refine ⟨_, ?_, .split hne⟩
  have hsh : p.length ≠ (p ++ a :: old).length := by simp
  rw [insertRecursive, hkey.slice_eq, Call.liftM_ok, Call.ok_bind, commonPrefix_of_ne hne,
    if_neg hsh, splitExtension_eq hkey, Call.liftM_ok, Call.ok_bind, hrdy.updateExtension]

theorem insertRecursive_stem (hkey : Remains key depth (stem ++ rest)) :
    engine.insertRecursive (.extension stem suf c) key value depth = (do
      let suffix ← engine.insertSuffix suf key value (depth + stem.length)
      .ok (engine.sealedExtension stem (some suffix))) := by
  simp only [insertRecursive, hkey.slice_eq, Call.liftM_ok, Call.ok_bind, commonPrefix_append,
    if_true, hrdy.updateExtension]

theorem insertNewBranch_eq (hkey : Remains key depth (i :: rest)) :
    engine.insertNewBranch key value depth =
      .ok (engine.sealedBranch (update (fun _ => none) i (some (.newPath rest value)))) := by
  have hlt : ¬key.length ≤ depth := by
    rw [hkey.length_eq, length_cons]
    omega
  simp only [insertNewBranch, if_neg hlt, hkey.byteAt_eq, hkey.next.slice_eq, Call.liftM_ok,
    Call.ok_bind, hrdy.updateBranch]

theorem insertRecursive_branch {rest : Bytes} (hkey : Remains key depth (i :: rest)) :
    engine.insertRecursive (.branch cs none c) key value depth = (do
      let child ← engine.insertChild (cs i) key value depth
      .ok (engine.sealedBranch (update cs i (some child)))) := by
  have hlt : ¬key.length ≤ depth := by
    rw [hkey.length_eq, length_cons]
    omega
  simp only [insertRecursive, if_neg hlt, hkey.byteAt_eq, Call.liftM_ok, Call.ok_bind,
    hrdy.updateBranch]

theorem insertRecursive_inserts (value : Bytes) (hnode : WellFormed n node)
    (hkey : Remains key depth path) (hlen : path.length = n) :
    ∃ node', engine.insertRecursive node key value depth = .ok node' ∧
      Inserts engine value node path node' := by
  induction hnode generalizing depth path with
  | @vacant n stem c hn =>
    by_cases hstem : stem <+: path
    · obtain ⟨i, rest, rfl, -⟩ := exists_cons_of_stem (m := 0) hstem (hlen.trans hn)
      refine ⟨_, ?_, .fill⟩
      rw [insertRecursive_stem hrdy hkey, insertSuffix,
        insertNewBranch_eq hrdy hkey.append, Call.ok_bind]
    · exact insertRecursive_split hrdy hkey (by omega) hstem
  | @value n stem v c' c hn =>
    by_cases hstem : stem <+: path
    · obtain rfl := hstem.eq_of_length (by omega)
      refine ⟨_, ?_, .replace⟩
      have hkey : Remains key depth (stem ++ []) := by rwa [append_nil]
      rw [insertRecursive_stem hrdy hkey, insertSuffix, insertRecursive,
        hrdy.updateLeaf, Call.ok_bind]
    · exact insertRecursive_split hrdy hkey (by omega) hstem
  | @fork n m cs stem c' c hn _ ih =>
    by_cases hstem : stem <+: path
    · obtain ⟨i, rest, rfl, hrest⟩ := exists_cons_of_stem hstem (hlen.trans hn)
      rw [insertRecursive_stem hrdy hkey, insertSuffix, insertRecursive_branch hrdy hkey.append]
      cases hi : cs i with
      | none =>
        refine ⟨_, ?_, .add hi⟩
        rw [insertChild, hkey.append.next.slice_eq]
        rfl
      | some child =>
        obtain ⟨child', hch', hins⟩ := ih i child hi hkey.append.next hrest
        refine ⟨_, ?_, .descend hi hins⟩
        rw [insertChild, hch']
        rfl
    · exact insertRecursive_split hrdy hkey (by omega) hstem

end

end

section
variable {n : Nat} {key path : Bytes} {depth : Nat} {node : VerkleNode}

open VerkleNode

theorem keyPart_eq (hkey : Remains key depth path) :
    keyPart key stem depth = .ok (path.take stem.length) := by
  have hleft : subUsize key.length depth = .ok path.length := by
    rw [hkey.length_eq, subUsize_of_le (Nat.le_add_right ..), Nat.add_sub_cancel_left]
  rw [keyPart, hleft]
  exact hkey.slice_min

theorem take_eq_stem_iff : path.take stem.length = stem ↔ stem <+: path := by
  rw [prefix_iff_eq_take, eq_comm]

theorem getRecursive_extension (hkey : Remains key depth path) :
    getRecursive (.extension stem suf c) key depth =
      if stem <+: path then getSlot suf key (depth + stem.length) else .ok none := by
  rw [getRecursive, keyPart_eq hkey]
  exact if_congr take_eq_stem_iff rfl rfl

theorem getRecursive_branch (hkey : Remains key depth (i :: rest)) :
    getRecursive (.branch cs value c) key depth = getSlot (cs i) key (depth + 1) := by
  have hlt : ¬key.length ≤ depth := by
    rw [hkey.length_eq, length_cons]
    omega
  rw [getRecursive, if_neg hlt, hkey.byteAt_eq, Call.liftM_ok, Call.ok_bind]

theorem getRecursive_eq (hnode : WellFormed n node) (hkey : Remains key depth path)
    (hlen : path.length = n) : getRecursive node key depth = .ok (node.contents path) := by
  induction hnode generalizing depth path with
  | vacant =>
    rw [getRecursive_extension hkey, contents, slotContents, under_void, getSlot, ite_self]
    rfl
  | @value n stem v c' c hn =>
    rw [getRecursive_extension hkey, contents]
    by_cases hstem : stem <+: path
    · obtain rfl := hstem.eq_of_length (by omega)
      rw [if_pos hstem, under, if_pos hstem, drop_length]
      rfl
    · rw [if_neg hstem, under_eq_none hstem]
  | @fork n m cs stem c' c hn _ ih =>
    rw [getRecursive_extension hkey, contents_fork, getSlot]
    by_cases hstem : stem <+: path
    · rw [if_pos hstem]
      obtain ⟨i, rest, rfl, hrest⟩ := exists_cons_of_stem hstem (hlen.trans hn)
      rw [getRecursive_branch hkey.append, under_append_apply, WordMap.fork, comp_apply]
      cases hi : cs i with
      | none => rw [getSlot, slotContents, void]
      | some child => rw [getSlot, slotContents, ih i child hi hkey.append.next hrest]
    · rw [if_neg hstem, under_eq_none hstem]

end

section
variable [Crypto] {engine : VerkleCommitment} {depth : Nat} {node : VerkleNode}

open VerkleNode VerkleCommitment

theorem updateIfDeleted_extension (hrdy : engine.Ready) :
    ∃ c', engine.updateIfDeleted (.extension stem suf c) deleted =
      .ok (.extension stem suf c', deleted) := by
  cases deleted with
  | false => exact ⟨c, rfl⟩
  | true =>
    rw [updateIfDeleted, hrdy.updateExtension]
    exact ⟨_, rfl⟩

theorem updateIfDeleted_branch (hrdy : engine.Ready) (cs : UInt8 → Option VerkleNode)
    (c : Commitment) (deleted : Bool) :
    ∃ c', engine.updateIfDeleted (.branch cs none c) deleted =
      .ok (.branch cs none c', deleted) := by
  cases deleted with
  | false => exact ⟨c, rfl⟩
  | true =>
    rw [updateIfDeleted, hrdy.updateBranch]
    exact ⟨_, rfl⟩

theorem deleteRecursive_stem (hrdy : engine.Ready) (hkey : Remains key depth (stem ++ rest))
    (hsuf : engine.deleteSlot suf key (depth + stem.length) = .ok (suf', deleted)) :
    ∃ c', engine.deleteRecursive (.extension stem suf c) key depth =
      .ok (.extension stem suf' c', deleted) := by
  obtain ⟨c', hc'⟩ := updateIfDeleted_extension hrdy
  refine ⟨c', ?_⟩
  rw [deleteRecursive, keyPart_eq hkey, take_left, Call.liftM_ok, Call.ok_bind, if_pos rfl, hsuf]
  exact hc'

theorem deleteRecursive_offPath (hkey : Remains key depth path) (hstem : ¬stem <+: path) :
    engine.deleteRecursive (.extension stem suf c) key depth =
      .ok (.extension stem suf c, (contents (.extension stem suf c) path).isSome) := by
  rw [deleteRecursive, keyPart_eq hkey, Call.liftM_ok, Call.ok_bind,
    if_neg (mt (take_eq_stem_iff).mp hstem), contents, under_eq_none hstem]
  rfl

theorem deleteRecursive_branch (hrdy : engine.Ready) {cs : UInt8 → Option VerkleNode}
    (hkey : Remains key depth (i :: rest))
    (hslot : engine.deleteSlot (cs i) key (depth + 1) = .ok (child, deleted))
    (hemp : deleted = true → child.any isNodeEmpty = false) :
    ∃ c', engine.deleteRecursive (.branch cs none c) key depth =
      .ok (.branch (update cs i child) none c', deleted) := by
  obtain ⟨c', hc'⟩ := updateIfDeleted_branch hrdy (update cs i child) c deleted
  refine ⟨c', ?_⟩
  have hlt : ¬key.length ≤ depth := by
    rw [hkey.length_eq, length_cons]
    omega
  have hkept : (deleted && child.any isNodeEmpty) = false := by
    cases deleted with
    | false => rfl
    | true => exact hemp rfl
  rw [deleteRecursive, if_neg hlt, hkey.byteAt_eq, Call.liftM_ok, Call.ok_bind, hslot, Call.ok_bind]
  simp only [hkept, Bool.false_eq_true, if_false, hc']

omit [Crypto] in
theorem isNodeEmpty_eq_false (hnode : WellFormed n node) (h : (node.contents path).isSome) :
    isNodeEmpty node = false := by
  cases hnode with
  | vacant =>
    rw [contents, slotContents, under_void] at h
    cases h
  | value => rfl
  | fork => rfl

theorem deleteSlot_spec (hslot : ∀ node, slot = some node → ∃ node',
      engine.deleteRecursive node key depth = .ok (node', (node.contents path).isSome) ∧
        node'.contents = node.contents ∧ WellFormed n node') :
    ∃ slot', engine.deleteSlot slot key depth = .ok (slot', (slotContents slot path).isSome) ∧
      slotContents slot' = slotContents slot ∧
      ((slotContents slot path).isSome = true → slot'.any isNodeEmpty = false) ∧
      ∀ node, slot' = some node → WellFormed n node := by
  cases slot with
  | none =>
    refine ⟨none, ?_, rfl, fun _ => rfl, by simp⟩
    rfl
  | some node =>
    obtain ⟨node', hnode', hsame, hwell⟩ := hslot node rfl
    refine ⟨some node', ?_, ?_, ?_, ?_⟩
    · rw [deleteSlot, hnode']
      rfl
    · rw [slotContents, slotContents, hsame]
    · rw [slotContents, ← hsame]
      exact isNodeEmpty_eq_false hwell
    · rintro _ ⟨⟩
      exact hwell

/-- `delete_recursive` reports whether the key is there, and removes nothing. -/
theorem deleteRecursive_spec (hrdy : engine.Ready) (hnode : WellFormed n node)
    (hkey : Remains key depth path) (hlen : path.length = n) :
    ∃ node', engine.deleteRecursive node key depth = .ok (node', (node.contents path).isSome) ∧
      node'.contents = node.contents ∧ WellFormed n node' := by
  induction hnode generalizing depth path with
  | @vacant n stem c hn =>
    by_cases hstem : stem <+: path
    · obtain ⟨rest, rfl⟩ := hstem
      obtain ⟨c₁, hc₁⟩ := deleteRecursive_stem hrdy hkey (by rw [deleteSlot])
      refine ⟨.extension stem none c₁, ?_, ?_, .vacant hn⟩
      · rw [hc₁, contents, slotContents, under_void]
        rfl
      · rw [contents, contents]
    · exact ⟨_, deleteRecursive_offPath hkey hstem, rfl, .vacant hn⟩
  | @value n stem v c' c hn =>
    by_cases hstem : stem <+: path
    · obtain rfl := hstem.eq_of_length (by omega)
      have hkey : Remains key depth (stem ++ []) := by rwa [append_nil]
      have hleaf : engine.deleteSlot (some (.leaf v c')) key (depth + stem.length) =
          .ok (some (engine.sealedLeaf v), true) := by
        rw [deleteSlot, deleteRecursive, updateIfDeleted, hrdy.updateLeaf]
        rfl
      obtain ⟨c₁, hc₁⟩ := deleteRecursive_stem hrdy hkey hleaf
      refine ⟨.extension stem (some (engine.sealedLeaf v)) c₁, ?_, ?_, .value hn⟩
      · rw [hc₁, contents, under, if_pos hstem, drop_length]
        rfl
      · rw [sealedLeaf, contents, slotContents, contents, contents, slotContents, contents]
    · exact ⟨_, deleteRecursive_offPath hkey hstem, rfl, .value hn⟩
  | @fork n m cs stem c' c hn hchs ih =>
    by_cases hstem : stem <+: path
    · obtain ⟨i, rest, rfl, hrest⟩ := exists_cons_of_stem hstem (hlen.trans hn)
      obtain ⟨child, hslot, hcon, hemp, hch⟩ :=
        deleteSlot_spec fun node hi => ih i node hi hkey.append.next hrest
      obtain ⟨c₁, hc₁⟩ := deleteRecursive_branch hrdy hkey.append hslot hemp
      have hbra : engine.deleteSlot (some (.branch cs none c')) key (depth + stem.length) =
          .ok (some (.branch (update cs i child) none c₁),
            (slotContents (cs i) rest).isSome) := by
        rw [deleteSlot, hc₁]
        rfl
      obtain ⟨c₂, hc₂⟩ := deleteRecursive_stem hrdy hkey hbra
      refine ⟨.extension stem (some (.branch (update cs i child) none c₁)) c₂, ?_, ?_, .fork hn ?_⟩
      · rw [hc₂, contents_fork, under_append_apply]
        rfl
      · rw [contents_fork, comp_update, hcon]
        congr 2
        exact update_eq_self i (slotContents ∘ cs)
      · exact children_update hchs hch
    · exact ⟨_, deleteRecursive_offPath hkey hstem, rfl, .fork hn hchs⟩

end

end EthereumRust.Verkle
