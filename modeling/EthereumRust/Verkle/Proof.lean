import EthereumRust.Verkle.Map

/-!
# Proofs of the Verkle tree

The prover walks down from the root and lists the commitments of the nodes and of the siblings it
passes. The verifier combines them from the end of the list.
-/

namespace EthereumRust.Verkle

open Rust VerkleNode WordMap List

namespace VerkleCommitment

section
variable [Crypto] (self : VerkleCommitment)

def foldNodes (nodes : List (Bytes × Commitment)) (start : Commitment) : Commitment :=
  nodes.foldr (fun node current => self.digest (current.value ++ node.2.value)) start

def valueCommitment : Option Bytes → Commitment
  | some value => self.digest value
  | none => .default

variable {self}

theorem Ready.verifyProof_eq (hrdy : self.Ready) :
    self.verifyProof proof = .ok ((self.foldNodes proof.proofNodes
      (self.valueCommitment proof.value)).value = proof.rootCommitment.value) := by
  have hfold (nodes : List (Bytes × Commitment)) (start : Commitment) :
      nodes.reverse.foldlM (fun cur node => self.combineCommitments cur node.2) start =
        .ok (self.foldNodes nodes start) := by
    induction nodes with
    | nil => rfl
    | cons node nodes ih =>
      rw [reverse_cons, foldlM_append, ih, Call.ok_bind, foldlM_cons, combineCommitments, hrdy]
      rfl
  have hrec : self.reconstructCommitmentFromProof proof =
      .ok (self.foldNodes proof.proofNodes (self.valueCommitment proof.value)) := by
    rw [reconstructCommitmentFromProof]
    cases proof.value with
    | none => exact hfold ..
    | some value =>
      simp only [computeLeafCommitment, hrdy value]
      exact hfold ..
  rw [verifyProof, hrec]
  rfl

end

section
variable {path : Bytes} {depth : Nat} {node : VerkleNode}

theorem slice_start (hkey : Remains key depth path) : ∃ used, slice key 0 depth = .ok used := by
  refine ⟨_, slice_eq_ok.mpr ⟨rfl, Nat.zero_le _, ?_⟩⟩
  rw [hkey.length_eq]
  exact Nat.le_add_right ..

/-- The prover finds what the slot holds for the rest of the key. -/
def Collects (slot : Option VerkleNode) (key path : Bytes) (depth : Nat) : Prop :=
  ∃ nodes, collectSlot slot key depth = .ok (slotContents slot path, nodes)

theorem collects_leaf (hkey : Remains key depth []) :
    Collects (some (.leaf value c)) key [] depth := by
  obtain ⟨used, hused⟩ := slice_start hkey
  refine ⟨[(used, c)], ?_⟩
  rw [collectSlot, collectProofNodes, hused]
  rfl

theorem collects_branch (hkey : Remains key depth (i :: rest))
    (hch : Collects (cs i) key rest (depth + 1)) :
    Collects (some (.branch cs none c)) key (i :: rest) depth := by
  obtain ⟨used, hused⟩ := slice_start hkey
  obtain ⟨nodes, hnds⟩ := hch
  have hlt : ¬key.length ≤ depth := by
    rw [hkey.length_eq, length_cons]
    omega
  refine ⟨(used, c) :: (siblingNodes cs i ++ nodes), ?_⟩
  rw [collectSlot, collectProofNodes, hused, Call.liftM_ok, Call.ok_bind, if_neg hlt,
    hkey.byteAt_eq, Call.liftM_ok, Call.ok_bind, hnds]
  rfl

theorem collects_extension (hkey : Remains key depth (stem ++ rest))
    (hsuf : Collects suf key rest (depth + stem.length)) :
    Collects (some (.extension stem suf c)) key (stem ++ rest) depth := by
  obtain ⟨used, hused⟩ := slice_start hkey
  obtain ⟨nodes, hnds⟩ := hsuf
  refine ⟨(used, c) :: nodes, ?_⟩
  rw [collectSlot, collectProofNodes, hused, Call.liftM_ok, Call.ok_bind, keyPart_eq hkey,
    Call.liftM_ok, Call.ok_bind, take_left, if_pos rfl, hnds, slotContents, contents,
    under_append_apply]
  rfl

theorem collectSlot_offPath {stem : Bytes} (hkey : Remains key depth path)
    (hstem : ¬stem <+: path) :
    ∃ used, collectSlot (some (.extension stem suf c)) key depth = .ok (none, [(used, c)]) := by
  obtain ⟨used, hused⟩ := slice_start hkey
  refine ⟨used, ?_⟩
  rw [collectSlot, collectProofNodes, hused, Call.liftM_ok, Call.ok_bind, keyPart_eq hkey,
    Call.liftM_ok, Call.ok_bind, if_neg (mt (take_eq_stem_iff).mp hstem)]
  rfl

theorem collects_offPath {stem : Bytes} (hkey : Remains key depth path) (hstem : ¬stem <+: path) :
    Collects (some (.extension stem suf c)) key path depth := by
  obtain ⟨used, hused⟩ := collectSlot_offPath hkey hstem
  refine ⟨[(used, c)], hused.trans ?_⟩
  rw [slotContents, contents, under_eq_none hstem]

theorem collects_of_wellFormed (hnode : WellFormed n node) (hkey : Remains key depth path)
    (hlen : path.length = n) : Collects (some node) key path depth := by
  induction hnode generalizing depth path with
  | @vacant n stem c =>
    by_cases hstem : stem <+: path
    · obtain ⟨rest, rfl⟩ := hstem
      exact collects_extension hkey ⟨[], rfl⟩
    · exact collects_offPath hkey hstem
  | @value n stem v c' c hn =>
    by_cases hstem : stem <+: path
    · obtain ⟨rest, rfl⟩ := hstem
      obtain rfl : rest = [] := by
        rw [length_append] at hlen
        exact eq_nil_of_length_eq_zero (by omega)
      exact collects_extension hkey (collects_leaf hkey.append)
    · exact collects_offPath hkey hstem
  | @fork n m cs stem c' c hn _ ih =>
    by_cases hstem : stem <+: path
    · obtain ⟨i, rest, rfl, hrest⟩ := exists_cons_of_stem hstem (hlen.trans hn)
      refine collects_extension hkey (collects_branch hkey.append ?_)
      cases hi : cs i with
      | none => exact ⟨[], rfl⟩
      | some child => exact ih i child hi hkey.append.next hrest
    · exact collects_offPath hkey hstem

end

def basisRow (i : Nat) : Bytes := (List.replicate 32 0).set (i % 32) (.ofNat (i / 32) + 1)

theorem basis_of_new [Build]
    (h : IPAParams.new width = .ok params) : params.basis = (range width).map basisRow := by
  obtain ⟨basis, hbas, h⟩ := h.of_bind
  cases h
  have hrows := Checked.of_mapM_eq_ok hbas
  rw [Checked.mapM_eq_ok (g := basisRow)] at hbas
  · exact (Except.ok.inj hbas).symm
  · intro i hi
    obtain ⟨row, hrow⟩ := hrows i hi
    obtain ⟨entry, hent, -⟩ := hrow.of_bind
    rw [hent, eq_of_plusU8 hent]
    rfl

theorem getElem?_basis :
    ((range width).map basisRow)[i]? = if i < width then some (basisRow i) else none := by
  rw [getElem?_map]
  split_ifs with hi
  · rw [getElem?_range hi, Option.map_some]
  · rw [getElem?_eq_none (by simpa using hi), Option.map_none]

theorem addRow_basisRow (hval : value.length = 32) :
    addRow value (basisRow i) byte =
      value.modify (i % 32) (· ^^^ (.ofNat (i / 32) + 1) * byte) := by
  refine ext_getElem? fun j => ?_
  rw [addRow, basisRow, getElem?_mapIdx, getElem?_modify]
  cases hent : value[j]? with
  | none => rfl
  | some entry =>
    have hj : j < 32 := hval ▸ (List.getElem?_eq_some_iff.mp hent).1
    rw [getElem?_set, length_replicate, getElem?_replicate, if_pos hj]
    by_cases hij : i % 32 = j
    · simp [hij, hj]
    · simp [hij]

theorem modify_length (f : UInt8 → UInt8) :
    (k ++ byte :: rest).modify k.length f = k ++ f byte :: rest := by
  induction k with
  | nil => rfl
  | cons a k ih => exact congrArg (a :: ·) ih

def Narrow (width : Nat) (value : Bytes) : Prop :=
  value.length = 32 ∧ ∀ j < 32, width ≤ j → value[j]? = some 0

theorem narrow_combineRows : Narrow width (combineRows ((range width).map basisRow) data) := by
  rw [combineRows]
  generalize data.zipIdx = es
  have hst : Narrow width (replicate 32 (0 : UInt8)) := by
    refine ⟨length_replicate, fun j hj _ => ?_⟩
    rw [getElem?_replicate, if_pos hj]
  generalize (replicate 32 0 : Bytes) = value at hst ⊢
  induction es generalizing value with
  | nil => exact hst
  | cons entry es ih =>
    rw [foldl_cons]
    apply ih
    rw [getElem?_basis]
    by_cases hent : entry.2 < width
    · simp only [if_pos hent]
      rw [addRow_basisRow hst.1]
      refine ⟨(length_modify ..).trans hst.1, fun j hj hwid => ?_⟩
      have hne : entry.2 % 32 ≠ j := by
        omega
      simp [hst.2 j hj hwid, hne]
    · simpa only [if_neg hent] using hst

theorem combineRows_of_narrow (h : Narrow width value) :
    combineRows ((range width).map basisRow) value = value := by
  -- the bytes before `k` have been added, behind them there are still zeros
  suffices ∀ rest k : Bytes, value = k ++ rest →
      (rest.zipIdx k.length).foldl (fun value entry =>
        match ((range width).map basisRow)[entry.2]? with
        | some row => addRow value row entry.1
        | none => value) (k ++ replicate rest.length 0) = value by
    have hall := this value [] rfl
    rwa [nil_append, h.1] at hall
  intro rest
  induction rest with
  | nil =>
    intro k hk
    rw [hk]
    rfl
  | cons byte rest ih =>
    intro k hk
    have hnext := ih (k ++ [byte]) (by rw [hk, append_assoc]; rfl)
    rw [length_append, length_singleton, append_assoc, singleton_append] at hnext
    have hlen : k.length < 32 := by
      rw [← h.1, hk, length_append, length_cons]
      omega
    rw [zipIdx_cons, foldl_cons]
    by_cases hwid : k.length < width
    · have hrow : addRow (k ++ 0 :: replicate rest.length 0) (basisRow k.length) byte =
          k ++ byte :: replicate rest.length 0 := by
        have hsize : (k ++ 0 :: replicate rest.length (0 : UInt8)).length = 32 := by
          rw [← h.1, hk]
          simp
        rw [addRow_basisRow hsize, Nat.mod_eq_of_lt hlen, Nat.div_eq_of_lt hlen, modify_length]
        simp
      simp only [getElem?_basis, if_pos hwid, length_cons, replicate_succ, hrow]
      simpa only [getElem?_basis] using hnext
    · -- the byte is behind the width, and so it is zero
      have hzero := h.2 k.length hlen (by omega)
      rw [hk, getElem?_append_right le_rfl, Nat.sub_self] at hzero
      obtain rfl : byte = 0 := Option.some.inj hzero
      simp only [getElem?_basis, if_neg hwid, length_cons, replicate_succ]
      simpa only [getElem?_basis] using hnext

theorem digest_value_of_ipa [Crypto] [Build] {cfg : VerkleConfig}
    (hnew : new cfg = .ok self) (hipa : cfg.commitmentScheme = .ipa) :
    (self.digest data).value = combineRows ((range cfg.width).map basisRow) data := by
  rw [new, hipa] at hnew
  obtain ⟨params, hpar, h⟩ := hnew.of_bind
  cases h
  rw [digest, hipa]
  exact congrArg (combineRows · data) (basis_of_new hpar)

theorem digest_digest_of_ipa [Crypto] [Build] {cfg : VerkleConfig}
    (hnew : new cfg = .ok self) (hipa : cfg.commitmentScheme = .ipa) :
    (self.digest (self.digest data).value).value = (self.digest data).value := by
  rw [digest_value_of_ipa hnew hipa, digest_value_of_ipa hnew hipa]
  exact combineRows_of_narrow (narrow_combineRows ..)

end VerkleCommitment

namespace VerkleTree

section
variable [Crypto] [Build] {cfg : VerkleConfig} {start tree : VerkleTree}

/-- The number of zero bytes at the front. -/
def zeros (path : Bytes) : Nat := (path.takeWhile (· = 0)).length

omit [Crypto] [Build] in
theorem zeros_append (k : Nat) (rest : Bytes) : zeros (replicate k 0 ++ rest) = k + zeros rest := by
  simp [zeros]

/-- The root goes on with a path of more than `m` zeros. -/
def Beyond (m : Nat) (root : VerkleNode) : Prop :=
  ∃ k suffixTree c, m < k ∧ root = .extension (List.replicate k 0) suffixTree c

omit [Build] in
theorem beyond_of_inserts (h : Inserts engine value node path node') (hm : m < zeros path)
    (hnode : Beyond m node) : Beyond m node' := by
  obtain ⟨k, suf, c, hk, hnode⟩ := hnode
  cases h with
  | fill =>
    cases hnode
    exact ⟨k, _, _, hk, rfl⟩
  | replace =>
    cases hnode
    exact ⟨k, _, _, hk, rfl⟩
  | add =>
    cases hnode
    exact ⟨k, _, _, hk, rfl⟩
  | descend =>
    cases hnode
    exact ⟨k, _, _, hk, rfl⟩
  | @split a b p old _ _ new hne =>
    obtain ⟨hstem, -⟩ := VerkleNode.extension.inj hnode
    obtain ⟨hlen, hp, hold⟩ := append_eq_replicate_iff.mp hstem
    obtain rfl : a = 0 := eq_of_mem_replicate (hold ▸ mem_cons_self)
    rw [hp, zeros_append, zeros, takeWhile_cons_of_neg (by simpa using hne.symm)] at hm
    exact ⟨p.length, _, _, hm, by rw [← hp]; rfl⟩

/-- For every key `generate_proof` returns a proof with its value, and `verify_proof` returns. With
IPA it accepts if the key has fewer zero bytes at its front than each key that was inserted, and
fewer than 31. -/
theorem verifies_of_zeros (hnew : new cfg = .ok start) (hkey : cfg.keyLength = 32)
    (hne : ins ≠ []) (hrun : start.insertAll ins = .ok tree) (key : H256) :
    ∃ proof accepted, tree.generateProof key.toList = .ok proof ∧
      proof.value = lastInserted ins key ∧ tree.verifyProof proof = .ok accepted ∧
      (cfg.commitmentScheme = .ipa → zeros key.toList < 31 →
        (∀ insertion ∈ ins, zeros key.toList < zeros insertion.key.toList) →
        accepted = true) := by
  obtain ⟨tree', hrun', hgr, hbey⟩ := insertAll_induct hnew hkey (P := fun ins root =>
      zeros key.toList < 31 →
        (∀ insertion ∈ ins, zeros key.toList < zeros insertion.key.toList) →
        Beyond (zeros key.toList) root)
    (fun hlt _ => ⟨31, none, .default, hlt, rfl⟩)
    (fun _ hins ih hlt hkeys => by
      rw [forall_mem_append, forall_mem_singleton] at hkeys
      exact beyond_of_inserts hins hkeys.2 (ih hlt hkeys.1)) ins
  obtain rfl := Except.ok.inj (hrun.symm.trans hrun')
  obtain ⟨root, hroot, hcom⟩ := hgr.root hne
  rw [rootOrNew, hroot, Option.getD_some] at hbey
  have H := hgr.holds
  obtain ⟨nodes, hnds⟩ := VerkleCommitment.collects_of_wellFormed (H.wellFormed root hroot)
    (.start _) key.toList_length
  rw [← hroot, H.contents, hroot] at hnds
  refine ⟨⟨key.toList, lastInserted ins key, nodes, root.commitment⟩, _, ?_, rfl,
    H.ready.verifyProof_eq, fun hipa hlt hkeys => ?_⟩
  · rw [generateProof, H.checkKey_eq, hroot]
    rw [collectSlot] at hnds
    simp only [hnds]
    rfl
  · obtain ⟨k, suf, c, hk, rfl⟩ := hbey hlt hkeys
    have hstem : ¬replicate k 0 <+: key.toList := by
      rintro ⟨rest, hrest⟩
      rw [← hrest, zeros_append] at hk
      omega
    obtain ⟨used, hoff⟩ := VerkleCommitment.collectSlot_offPath (.start _) hstem
    obtain ⟨hval, rfl⟩ := Prod.mk.inj (Except.ok.inj (hnds.symm.trans hoff))
    obtain ⟨engine, heng, hst⟩ := hnew.of_bind
    cases hst
    rw [hval, decide_eq_true_eq, hgr.engine_eq]
    obtain rfl : c = engine.digest (replicate k 0 ++ (slotCommitment suf).value) := hcom
    exact VerkleCommitment.digest_digest_of_ipa heng hipa

end

section
open Unhashed Debug

def ipaConfig : VerkleConfig := { VerkleConfig.default with width := 1 }

def ipaTree : VerkleTree where
  config := ipaConfig
  root := none
  commitmentEngine := {
    config := ipaConfig
    ipaParams := some ⟨[VerkleCommitment.basisRow 0], 1⟩
    kzgParams := none }
  cache := ∅

theorem new_ipaConfig : new ipaConfig = .ok ipaTree := rfl

def oneByteKey (byte : UInt8) : H256 := ⟨List.replicate 31 0 ++ [byte], rfl⟩

theorem verifies_of_zeros_sample : ∃ tree proof,
    ipaTree.insertAll [⟨[], oneByteKey 1, [1]⟩, ⟨[], oneByteKey 2, [2]⟩] = .ok tree ∧
    tree.generateProof sampleKey.toList = .ok proof ∧ proof.value = none ∧
    tree.verifyProof proof = .ok true := by
  obtain ⟨tree, hrun, -⟩ := exists_insertAll new_ipaConfig rfl
  obtain ⟨proof, accepted, hpro, hval, hver, hacc⟩ :=
    verifies_of_zeros new_ipaConfig rfl (cons_ne_nil _ _) hrun sampleKey
  refine ⟨tree, proof, hrun, hpro, hval, ?_⟩
  rw [hver, hacc rfl (by decide) (by decide)]

/-- One insertion under the IPA scheme: `verify_proof` rejects the proof of its key. -/
theorem proof_rejected : ∃ tree proof, new ipaConfig = .ok ipaTree ∧
    ipaTree.insertAll [⟨[], sampleKey, [1]⟩] = .ok tree ∧
    tree.generateProof sampleKey.toList = .ok proof ∧ proof.value = some [1] ∧
    tree.verifyProof proof = .ok false := by
  refine ⟨_, _, rfl, rfl, rfl, rfl, ?_⟩
  decide +kernel

end

end VerkleTree

end EthereumRust.Verkle
