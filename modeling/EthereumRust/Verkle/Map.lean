import EthereumRust.Verkle.Contents

/-!
# The Verkle tree as a map

`Holds tree map` is the invariant of a tree under insertions, lookups and deletions: the tree and
the entries of the cache agree with one map from keys to values.
-/

namespace EthereumRust.Verkle
open Rust VerkleNode Function

structure Insertion where
  order : List H256
  key : H256
  value : Bytes

/-- The value of the last insertion at a key. -/
def lastInserted (insertions : List Insertion) (key : H256) : Option Bytes :=
  (insertions.reverse.find? (·.key = key)).map (·.value)

theorem lastInserted_append :
    lastInserted (ins ++ [insertion]) =
      update (lastInserted ins) insertion.key (some insertion.value) := by
  funext key
  rw [lastInserted]
  by_cases hkey : insertion.key = key
  · simp [hkey]
  · simp [hkey, Ne.symm hkey, lastInserted]

inductive TreeCall where
  | insert (insertion : Insertion)
  | get (key : H256)
  | delete (key : H256)

inductive Answer where
  | inserted
  | got (value : Option Bytes)
  | deleted (deleted : Bool)
  deriving DecidableEq

namespace TreeCall

def write (map : H256 → Option Bytes) : TreeCall → H256 → Option Bytes
  | .insert insertion => Function.update map insertion.key (some insertion.value)
  | .get _ => map
  | .delete _ => map

def answer (map : H256 → Option Bytes) : TreeCall → Answer
  | .insert _ => .inserted
  | .get key => .got (map key)
  | .delete key => .deleted (map key).isSome

def answers (map : H256 → Option Bytes) : List TreeCall → List Answer
  | [] => []
  | call :: calls => call.answer map :: answers (call.write map) calls

theorem foldl_write_eq_none {calls : List TreeCall} :
    calls.foldl write (fun _ => none) key = none ↔ ∀ ins, insert ins ∈ calls → ins.key ≠ key := by
  induction calls using List.reverseRecOn with
  | nil => simp
  | append_singleton calls call ih =>
    cases call with
    | insert ins =>
      by_cases hkey : key = ins.key
      · simp [write, hkey, or_imp, forall_and]
      · simp [write, ih, hkey, Ne.symm hkey, or_imp, forall_and]
    | get => simp [write, ih]
    | delete => simp [write, ih]

end TreeCall

namespace VerkleTree

section
variable [Crypto]

def perform (self : VerkleTree) : TreeCall → Call VerkleError (Answer × VerkleTree)
  | .insert insertion => do
    let self ← self.insert insertion.order insertion.key.toList insertion.value
    return (.inserted, self)
  | .get key => do
    let value ← self.get key.toList
    return (.got value, self)
  | .delete key => do
    let (deleted, self) ← self.delete key.toList
    return (.deleted deleted, self)

def insertAll (self : VerkleTree) (insertions : List Insertion) : Call VerkleError VerkleTree :=
  insertions.foldlM
    (fun self insertion => self.insert insertion.order insertion.key.toList insertion.value) self

def performAll (self : VerkleTree) : List TreeCall → Call VerkleError (List Answer × VerkleTree)
  | [] => .ok ([], self)
  | call :: calls => do
    let (answer, self) ← self.perform call
    let (answers, self) ← self.performAll calls
    return (answer :: answers, self)

end

def rootOrNew (self : VerkleTree) : VerkleNode :=
  self.root.getD (.newExtension (List.replicate 31 0))

theorem contents_rootOrNew (s : VerkleTree) : s.rootOrNew.contents = slotContents s.root := by
  rw [rootOrNew]
  cases s.root with
  | none => rw [Option.getD_none, newExtension, contents, slotContents, WordMap.under_void]
  | some root => rw [Option.getD_some, slotContents]

structure Holds [Crypto] (tree : VerkleTree) (map : H256 → Option Bytes) : Prop where
  keyLength : tree.config.keyLength = 32
  ready : tree.commitmentEngine.Ready
  wellFormed : ∀ root, tree.root = some root → WellFormed 32 root
  contents : ∀ key : H256, slotContents tree.root key.toList = map key
  cached : tree.config.enableCache = true →
    ∀ key value, tree.cache.lookup key = some value → map key = some value

theorem lookup_evictCacheEntries {cache : HashMap H256 Bytes}
    (h : (evictCacheEntries order cache).lookup key = some value) :
    cache.lookup key = some value := by
  rw [evictCacheEntries] at h
  generalize order.take (cache.keys.card / 10) = evicted at h
  induction evicted generalizing cache with
  | nil => exact h
  | cons k evicted ih =>
    have hera := ih h
    by_cases hk : key = k
    · rw [hk, Finmap.lookup_erase] at hera
      cases hera
    · rwa [Finmap.lookup_erase_ne hk] at hera

namespace Holds
variable [Crypto]

section
variable (H : Holds tree map)
include H

theorem checkKey_eq (key : H256) : tree.checkKey key.toList = .ok () :=
  if_neg fun h => h (key.toList_length.trans H.keyLength.symm)

theorem wellFormed_rootOrNew : WellFormed 32 tree.rootOrNew := by
  rw [rootOrNew]
  cases hroot : tree.root with
  | none => exact .vacant rfl
  | some root => exact H.wellFormed root hroot

theorem lookup_eq (key : H256) : tree.lookup key.toList = .ok (map key) := by
  rw [lookup, ← H.contents]
  cases hroot : tree.root with
  | none => rfl
  | some root => exact getRecursive_eq (H.wellFormed root hroot) (.start _) key.toList_length

theorem get_eq : tree.get key.toList = .ok (map key) := by
  rw [get, H.checkKey_eq, Call.ok_bind, H.lookup_eq, H256.fromSlice_toList, Call.liftM_ok,
    Call.ok_bind]
  by_cases hcac : tree.config.enableCache = true
  · rw [if_pos hcac]
    cases hkey : tree.cache.lookup key with
    | none => rfl
    | some value => rw [H.cached hcac key value hkey]; rfl
  · rw [if_neg hcac]

theorem updateCache_spec (order : List H256) (key : H256) (value : Bytes) :
    ∃ cache, tree.updateCache order key.toList value = .ok cache ∧
      (tree.config.enableCache = true → ∀ key' value', cache.lookup key' = some value' →
        update map key (some value) key' = some value') := by
  by_cases hcac : tree.config.enableCache = true
  · have hins (key' : H256) (value' : Bytes)
        (h : (tree.cache.insert key value).lookup key' = some value') :
        update map key (some value) key' = some value' := by
      rw [HashMap.lookup_insert_ite] at h
      rw [update_apply]
      split_ifs at h ⊢
      · exact h
      · exact H.cached hcac key' value' h
    rw [updateCache, if_pos hcac, H256.fromSlice_toList]
    change ∃ cache, (if tree.config.cacheSize < (tree.cache.insert key value).keys.card then
      Except.ok (evictCacheEntries order (tree.cache.insert key value)) else
      Except.ok (tree.cache.insert key value)) = Except.ok cache ∧ _
    split_ifs
    · exact ⟨_, rfl, fun _ key' value' h => hins key' value' (lookup_evictCacheEntries h)⟩
    · exact ⟨_, rfl, fun _ => hins⟩
  · exact ⟨tree.cache, if_neg hcac, fun h => absurd h hcac⟩

theorem insert_spec (order : List H256) (key : H256) (value : Bytes) :
    ∃ root cache, tree.insert order key.toList value = .ok { tree with root := some root, cache } ∧
      Inserts tree.commitmentEngine value tree.rootOrNew key.toList root ∧
      Holds { tree with root := some root, cache } (update map key (some value)) := by
  obtain ⟨cache, hcac, hca⟩ := H.updateCache_spec order key value
  obtain ⟨root, hinsert, hins⟩ :=
    insertRecursive_inserts H.ready value H.wellFormed_rootOrNew (.start _) key.toList_length
  refine ⟨root, cache, ?_, hins, H.keyLength, H.ready, ?_, ?_, hca⟩
  · rw [rootOrNew] at hinsert
    simp only [insert, H.checkKey_eq, hinsert, hcac]
    rfl
  · rintro _ ⟨⟩
    have hwell := hins.wellFormed
    rw [key.toList_length] at hwell
    exact hwell H.wellFormed_rootOrNew
  · intro key'
    rw [slotContents, hins.contents_eq, contents_rootOrNew, update_apply, update_apply, H.contents]
    exact if_congr ⟨List.Vector.eq _ _, congrArg _⟩ rfl rfl

theorem delete_spec (key : H256) :
    ∃ tree', tree.delete key.toList = .ok ((map key).isSome, tree') ∧ Holds tree' map := by
  rw [delete, H.checkKey_eq]
  cases hroot : tree.root with
  | none =>
    have hnone : map key = none := by
      rw [← H.contents, hroot]
      rfl
    rw [hnone]
    exact ⟨tree, rfl, H⟩
  | some root =>
    have hmap (key : H256) : root.contents key.toList = map key := by
      rw [← H.contents, hroot, slotContents]
    obtain ⟨root', hdel, hsame, hwell⟩ :=
      deleteRecursive_spec H.ready (H.wellFormed root hroot) (.start _) key.toList_length
    rw [hmap] at hdel
    have Hroot {cache : HashMap H256 Bytes} (hca : tree.config.enableCache = true →
        ∀ key value, cache.lookup key = some value → map key = some value) :
        Holds { tree with root := some root', cache } map := by
      refine ⟨H.keyLength, H.ready, ?_, ?_, hca⟩
      · rintro _ ⟨⟩
        exact hwell
      · intro key'
        rw [slotContents, hsame, hmap]
    simp only [hdel, Call.ok_bind, H256.fromSlice_toList]
    split_ifs with hcac
    · refine ⟨_, rfl, Hroot fun hena key' value h => H.cached hena key' value ?_⟩
      by_cases hkey : key' = key
      · rw [hkey, Finmap.lookup_erase] at h
        cases h
      · rwa [Finmap.lookup_erase_ne hkey] at h
    · exact ⟨_, rfl, Hroot H.cached⟩

end

end Holds

section
variable [Crypto] {cfg : VerkleConfig}

theorem holds_new [Build] (hnew : new cfg = .ok start) (hkey : cfg.keyLength = 32) :
    Holds start fun _ => none := by
  obtain ⟨engine, heng, h⟩ := hnew.of_bind
  cases h
  refine ⟨hkey, VerkleCommitment.ready_of_new heng, nofun, fun _ => rfl, fun _ key value h => ?_⟩
  cases h

theorem Holds.perform_spec (H : Holds tree map) (call : TreeCall) :
    ∃ tree', tree.perform call = .ok (call.answer map, tree') ∧ Holds tree' (call.write map) := by
  cases call with
  | insert ins =>
    obtain ⟨root, cache, hins, -, H'⟩ := H.insert_spec ins.order ins.key ins.value
    refine ⟨_, ?_, H'⟩
    rw [perform, hins]
    rfl
  | get key =>
    refine ⟨tree, ?_, H⟩
    rw [perform, H.get_eq]
    rfl
  | delete key =>
    obtain ⟨tree', hdel, H'⟩ := H.delete_spec key
    refine ⟨tree', ?_, H'⟩
    rw [perform, hdel]
    rfl

theorem Holds.performAll_spec (H : Holds tree map) :
    ∃ tree', tree.performAll calls = .ok (TreeCall.answers map calls, tree') ∧
      Holds tree' (calls.foldl TreeCall.write map) := by
  induction calls generalizing tree map with
  | nil => exact ⟨tree, rfl, H⟩
  | cons call calls ih =>
    obtain ⟨tree₁, hcall, H₁⟩ := H.perform_spec call
    obtain ⟨tree₂, hcal, H₂⟩ := ih H₁
    refine ⟨tree₂, ?_, H₂⟩
    rw [performAll, hcall, Call.ok_bind]
    simp only [hcal]
    rfl

def sampleConfig : VerkleConfig := { VerkleConfig.default with commitmentScheme := .kzg }

def sampleTree : VerkleTree where
  config := sampleConfig
  root := none
  commitmentEngine := { config := sampleConfig, ipaParams := none, kzgParams := some ⟨256⟩ }
  cache := ∅

def sampleKey : H256 := ⟨.replicate 32 1, rfl⟩

omit [Crypto] in
theorem new_sampleConfig [Build] : new sampleConfig = .ok sampleTree := rfl

structure Grown (engine : VerkleCommitment) (insertions : List Insertion) (tree : VerkleTree) :
    Prop where
  engine_eq : tree.commitmentEngine = engine
  holds : Holds tree (lastInserted insertions)
  root : insertions ≠ [] →
    ∃ root, tree.root = some root ∧ root.commitment = engine.digest (nodeData root)

theorem Grown.contents_eq (h : Grown engine ins tree) (key : H256) :
    tree.rootOrNew.contents key.toList = lastInserted ins key := by
  rw [contents_rootOrNew, h.holds.contents]

theorem Grown.insert_spec (h : Grown engine ins tree) (insertion : Insertion) :
    ∃ root cache, tree.insert insertion.order insertion.key.toList insertion.value =
        .ok { tree with root := some root, cache } ∧
      Inserts engine insertion.value tree.rootOrNew insertion.key.toList root ∧
      Grown engine (ins ++ [insertion]) { tree with root := some root, cache } := by
  obtain ⟨root, cache, hinsert, hins, H⟩ :=
    h.holds.insert_spec insertion.order insertion.key insertion.value
  rw [h.engine_eq] at hins
  refine ⟨root, cache, hinsert, hins, h.engine_eq, ?_, fun _ => ⟨root, rfl, ?_⟩⟩
  · rwa [lastInserted_append]
  · exact hins.commitment_eq

/-- What holds of the root of a new tree and is kept by each insertion holds of the root after any
sequence of insertions. -/
theorem insertAll_induct [Build] (hnew : new cfg = .ok start) (hkey : cfg.keyLength = 32)
    {P : List Insertion → VerkleNode → Prop} (hst : P [] (.newExtension (List.replicate 31 0)))
    (hstep : ∀ {ins insertion node node'},
      (∀ key : H256, node.contents key.toList = lastInserted ins key) →
      Inserts start.commitmentEngine insertion.value node insertion.key.toList node' →
      P ins node → P (ins ++ [insertion]) node') (ins : List Insertion) :
    ∃ tree, start.insertAll ins = .ok tree ∧
      Grown start.commitmentEngine ins tree ∧ P ins tree.rootOrNew := by
  induction ins using List.reverseRecOn with
  | nil =>
    have hroot : start.root = none := by
      obtain ⟨engine, -, h⟩ := hnew.of_bind
      cases h
      rfl
    refine ⟨start, rfl, ⟨rfl, holds_new hnew hkey, fun h => absurd rfl h⟩, ?_⟩
    rwa [rootOrNew, hroot]
  | append_singleton ins insertion ih =>
    obtain ⟨tree, hrun, hgr, hP⟩ := ih
    obtain ⟨root, cache, hinsert, hins, hgr'⟩ := hgr.insert_spec insertion
    refine ⟨{ tree with root := some root, cache }, ?_, hgr', hstep hgr.contents_eq hins hP⟩
    rw [insertAll] at hrun
    rw [insertAll, List.foldlM_append, hrun, Call.ok_bind, List.foldlM_cons, hinsert]
    rfl

theorem exists_insertAll [Build] (hnew : new cfg = .ok start) (hkey : cfg.keyLength = 32) :
    ∃ tree, start.insertAll ins = .ok tree ∧ Grown start.commitmentEngine ins tree := by
  obtain ⟨tree, hrun, hgr, -⟩ :=
    insertAll_induct hnew hkey (P := fun _ _ => True) trivial (fun _ _ _ => trivial) ins
  exact ⟨tree, hrun, hgr⟩

/-- After every sequence of insertions a lookup finds the value of the last insertion of the key. -/
theorem lookup_eq_last_insert [Build] (hnew : new cfg = .ok start) (hkey : cfg.keyLength = 32)
    (ins : List Insertion) :
    ∃ tree, start.insertAll ins = .ok tree ∧
      ∀ key : H256, tree.lookup key.toList = .ok (lastInserted ins key) := by
  obtain ⟨tree, hrun, hgr⟩ := exists_insertAll hnew hkey
  exact ⟨tree, hrun, hgr.holds.lookup_eq⟩

end

open Unhashed Debug in
theorem lookup_eq_last_insert_sample : ∃ tree,
    sampleTree.insertAll [⟨[], H256.zero, [1]⟩, ⟨[], H256.zero, [2]⟩] = .ok tree ∧
      tree.lookup H256.zero.toList = .ok (some [2]) ∧ tree.lookup sampleKey.toList = .ok none := by
  obtain ⟨tree, hrun, hget⟩ := lookup_eq_last_insert new_sampleConfig rfl
    [⟨[], H256.zero, [1]⟩, ⟨[], H256.zero, [2]⟩]
  exact ⟨tree, hrun, hget H256.zero, hget sampleKey⟩

section
variable [Crypto] {cfg : VerkleConfig} {tree : VerkleTree}

/-- If `delete` reports a deletion the key is gone, if not it was absent; other keys stay. -/
def DeletesCorrectly (tree : VerkleTree) (key : H256) : Prop :=
  ∃ deleted tree', tree.delete key.toList = .ok (deleted, tree') ∧
    (deleted = true → tree'.get key.toList = .ok none) ∧
    (deleted = false → tree.get key.toList = .ok none) ∧
    ∀ other : H256, other ≠ key → tree'.get other.toList = tree.get other.toList

/-- In a tree reached by any calls, it is so for the keys that were never inserted. -/
theorem delete_correct_iff [Build] (hnew : new cfg = .ok start) (hkey : cfg.keyLength = 32)
    {calls : List TreeCall} {answers : List Answer}
    (hrun : start.performAll calls = .ok (answers, tree)) (key : H256) :
    DeletesCorrectly tree key ↔ ∀ ins, .insert ins ∈ calls → ins.key ≠ key := by
  obtain ⟨tree', hrun', H⟩ := (holds_new hnew hkey).performAll_spec
  obtain ⟨-, rfl⟩ := Prod.mk.inj (Except.ok.inj (hrun.symm.trans hrun'))
  rw [← TreeCall.foldl_write_eq_none]
  generalize calls.foldl TreeCall.write (fun _ => none) = map at H
  obtain ⟨tree', hdel, H'⟩ := H.delete_spec key
  constructor
  · rintro ⟨deleted, tree'', hdel', hgone, -, -⟩
    obtain ⟨rfl, rfl⟩ := Prod.mk.inj (Except.ok.inj (hdel.symm.trans hdel'))
    cases hmap : map key with
    | none => rfl
    | some value =>
      have hnone := hgone (by rw [hmap]; rfl)
      rw [H'.get_eq, hmap] at hnone
      cases hnone
  · intro hnone
    refine ⟨_, tree', hdel, ?_, ?_, ?_⟩
    · intro _
      rw [H'.get_eq, hnone]
    · intro _
      rw [H.get_eq, hnone]
    · intro other _
      rw [H'.get_eq, H.get_eq]

end

open Unhashed Debug in
theorem delete_correct_iff_sample : ∃ tree,
    sampleTree.performAll [.insert ⟨[], H256.zero, [1]⟩] = .ok ([.inserted], tree) ∧
    ¬DeletesCorrectly tree H256.zero ∧ DeletesCorrectly tree sampleKey := by
  obtain ⟨tree, hrun⟩ : ∃ tree, sampleTree.performAll [.insert ⟨[], H256.zero, [1]⟩] =
      .ok ([.inserted], tree) := ⟨_, rfl⟩
  refine ⟨tree, hrun, ?_, ?_⟩
  · rw [delete_correct_iff new_sampleConfig rfl hrun]
    simp
  · rw [delete_correct_iff new_sampleConfig rfl hrun]
    simp [show H256.zero ≠ sampleKey by decide]

open Unhashed Debug in
/-- The leaf is reported as deleted and stays under its extension. -/
theorem get_after_delete : ∃ tree, sampleTree.performAll [.insert ⟨[], H256.zero, [1]⟩,
    .delete H256.zero, .get H256.zero] =
      .ok ([.inserted, .deleted true, .got (some [1])], tree) :=
  ⟨_, rfl⟩

/-- Runs with the cache and without it give the same answers. -/
theorem answers_eq_without_cache [Crypto] [Build] {cfg : VerkleConfig}
    {cached uncached : VerkleTree} (hca : new { cfg with enableCache := true } = .ok cached)
    (hunc : new { cfg with enableCache := false } = .ok uncached) (hkey : cfg.keyLength = 32)
    (calls : List TreeCall) :
    ∃ answers cached' uncached', cached.performAll calls = .ok (answers, cached') ∧
      uncached.performAll calls = .ok (answers, uncached') := by
  obtain ⟨cached', hon, -⟩ := (holds_new hca hkey).performAll_spec
  obtain ⟨uncached', hoff, -⟩ := (holds_new hunc hkey).performAll_spec
  exact ⟨_, cached', uncached', hon, hoff⟩

/-- The last insertion evicts the first key from a cache of ten. -/
def elevenCalls : List TreeCall :=
  (List.range 11).map (fun i => .insert ⟨[.ofU256 0], .ofU256 (.ofNat 256 i), [.ofNat i]⟩) ++
    [.get (.ofU256 0), .delete (.ofU256 0), .get (.ofU256 0)]

open Unhashed Debug in
theorem answers_eq_without_cache_sample :
    ∃ cached uncached : VerkleTree, ∃ answers cached' uncached',
    new { sampleConfig with enableCache := true, cacheSize := 10 } = .ok cached ∧
    new { sampleConfig with enableCache := false, cacheSize := 10 } = .ok uncached ∧
    cached.performAll elevenCalls = .ok (answers, cached') ∧
    uncached.performAll elevenCalls = .ok (answers, uncached') ∧
    answers.drop 11 = [.got (some [0]), .deleted true, .got (some [0])] := by
  have hon : new { sampleConfig with enableCache := true, cacheSize := 10 } = .ok _ := rfl
  have hoff : new { sampleConfig with enableCache := false, cacheSize := 10 } = .ok _ := rfl
  obtain ⟨answers, cached', uncached', hca, hunc⟩ := @answers_eq_without_cache _ _
    { sampleConfig with cacheSize := 10 } _ _ hon hoff rfl elevenCalls
  obtain ⟨tree', hspec, -⟩ := (holds_new hoff rfl).performAll_spec
  obtain ⟨rfl, -⟩ := Prod.mk.inj (Except.ok.inj (hunc.symm.trans hspec))
  exact ⟨_, _, _, cached', uncached', hon, hoff, hca, hunc, by decide +kernel⟩

end VerkleTree

end EthereumRust.Verkle
