import EthereumRust.Trie.History
import Mathlib.Tactic.FinCases

/-!
# Tries with transparent references

Where every reference resolves to the node it was built from, a trie is the finite map of its
history, and its root is determined by the map.
-/

namespace EthereumRust.Trie

open Rust Radix List Finmap

theorem content_append :
    content (past ++ ops) = ops.foldl Op.onMap (content past) := foldl_append ..

section
variable [Crypto] {db : Database}

theorem TransparentHistory.of_append
    (h : TransparentHistory load db (past ++ future)) : TransparentHistory load db past :=
  fun _ hpast => h _ (hpast.trans (prefix_append ..))

theorem TransparentHistory.run (h : TransparentHistory load db ops)
    (hops : ∀ op ∈ ops, op.Within frames) :
    ∃ trie, (PatriciaTrie.new db).run load frames ops = .ok trie ∧
      Represents trie ((Model.new db).run ops) :=
  (represents_new db).run h hops

theorem TransparentHistory.now (h : TransparentHistory load db ops) :
    ((Model.new db).run ops).Transparent load := h ops prefix_rfl

theorem Represents.get_content (hrep : Represents trie ((Model.new db).run ops))
    (h : TransparentHistory load db ops) (hkey : 2 * key.length < frames) :
    trie.get load frames key = .ok ((content ops).lookup key) := by
  rw [hrep.get h.now hkey, (agrees_run db ops).lookup]

end

section
open Unhashed

def longValue : Bytes := List.replicate 40 7

def loadLong (_ : Database) (_ : H256) : Call TrieError Node :=
  .ok (.leaf ((Nibbles.fromBytes [0x21]).drop 1) longValue)

def grown : List Op := [.insert [0x11] [1], .insert [0x21] longValue, .insert [] [2]]

theorem transparent_grown : TransparentHistory loadLong ∅ (grown ++ [.delete [0x11]]) := by
  intro past hpast
  simp only [grown, cons_append, nil_append, prefix_cons_iff, prefix_nil] at hpast
  rcases hpast with rfl | ⟨_, rfl, rfl | ⟨_, rfl, rfl | ⟨_, rfl, rfl | ⟨_, rfl, rfl⟩⟩⟩⟩
  · trivial
  · trivial
  all_goals
    intro i
    fin_cases i <;> exact ⟨rfl, trivial⟩

end

/-- After every call of a history with transparent references the trie answers `get` like the map
of the history, `delete` returns whether its key is in the map, and a call on one key leaves the
lookups of all others as they were. -/
theorem history_agrees_with_map [Crypto] (load : Database → H256 → Call TrieError Node)
    (db : Database) (past future : List Op) (frames : Nat)
    (htr : TransparentHistory load db (past ++ future))
    (hops : ∀ op ∈ past ++ future, op.Within frames) :
    ∃ trie, (PatriciaTrie.new db).run load frames past = .ok trie ∧
      (∀ key, 2 * key.length < frames →
        trie.get load frames key = .ok ((content past).lookup key) ∧
        ∃ next, trie.delete load frames key = .ok (decide (key ∈ content past), next)) ∧
      ∀ op rest, future = op :: rest →
        ∃ next, trie.step load frames op = .ok next ∧
          ∀ key, 2 * key.length < frames → op.Spares key →
            next.get load frames key = trie.get load frames key := by
  have hpast := htr.of_append
  obtain ⟨trie, hrun, hrep⟩ := hpast.run fun op hop => hops op (mem_append_left _ hop)
  refine ⟨trie, hrun, fun key hkey => ⟨hrep.get_content hpast hkey, ?_⟩, ?_⟩
  · obtain ⟨next, heq, -⟩ := hrep.delete hpast.now hkey
    rw [(agrees_run db past).lookup] at heq
    have hmem : ((content past).lookup key).isSome = decide (key ∈ content past) := by
      rw [Bool.eq_iff_iff, lookup_isSome, decide_eq_true_iff]
    exact ⟨next, by rw [heq, hmem]⟩
  · rintro op rest rfl
    have hnext : TransparentHistory load db (past ++ [op]) := by
      have happ : past ++ op :: rest = past ++ [op] ++ rest := by simp
      rw [happ] at htr
      exact htr.of_append
    obtain ⟨next, heq, hrep'⟩ := hrep.step hpast.now (hops op (by simp))
    refine ⟨next, heq, fun key hkey hspa => ?_⟩
    have hmod : Represents next ((Model.new db).run (past ++ [op])) := by
      rw [← Model.run_run]
      exact hrep'
    rw [hmod.get_content hnext hkey, hrep.get_content hpast hkey, content_append]
    exact congrArg _ (lookup_onMap_of_spares hspa)

open Unhashed in
theorem history_agrees_with_map_grown :
    ∃ trie, (PatriciaTrie.new ∅).run loadLong 8 grown = .ok trie ∧
      trie.get loadLong 8 [0x21] = .ok ((content grown).lookup [0x21]) ∧
      (∃ next, trie.delete loadLong 8 [] = .ok (decide ([] ∈ content grown), next)) ∧
      ∃ next, trie.step loadLong 8 (.delete [0x11]) = .ok next ∧
        next.get loadLong 8 [0x21] = trie.get loadLong 8 [0x21] := by
  obtain ⟨trie, hrun, hkeys, hnext⟩ := history_agrees_with_map loadLong ∅ grown [.delete [0x11]] 8
    transparent_grown (by simp [grown, Op.Within])
  obtain ⟨next, hstep, hget⟩ := hnext _ _ rfl
  exact ⟨trie, hrun, (hkeys [0x21] (by decide)).1, (hkeys [] (by decide)).2, next, hstep,
    hget [0x21] (by decide) (by simp [Op.Spares])⟩

theorem tree_eq_of_content_eq [Crypto] (h : content ops = content ops') :
    ((Model.new db).run ops).tree = ((Model.new db').run ops').tree := by
  have hagr := agrees_run db ops
  have hagr' := agrees_run db' ops'
  rw [← h] at hagr'
  apply Tree.Canonical.eq_of_get_eq (Model.canonical _) (Model.canonical _)
  -- both trees hold the es of the map and nothing else
  have hsame {t t' : Tree 16 Bytes} (ht : Agrees t (content ops)) (ht' : Agrees t' (content ops))
      {nibs : Nibbles} (hne : t.get nibs ≠ none) : t.get nibs = t'.get nibs := by
    obtain ⟨key, rfl⟩ := ht.only nibs hne
    rw [ht.lookup, ht'.lookup]
  intro nibs
  cases hget : ((Model.new db).run ops).tree.get nibs with
  | some value =>
    rw [← hget]
    exact hsame hagr hagr' (by simp [hget])
  | none =>
    cases hget' : ((Model.new db').run ops').tree.get nibs with
    | none => rfl
    | some value =>
      rw [← hget', ← hget]
      exact (hsame hagr' hagr (by simp [hget'])).symm

theorem Represents.same_root [Crypto] {db db' : Database}
    (h : Represents trie ((Model.new db).run ops))
    (h' : Represents trie' ((Model.new db').run ops')) (hcon : content ops = content ops') :
    trie.root = trie'.root ∧ trie.rootHash.1 = trie'.rootHash.1 := by
  rw [h.root, h'.root, h.rootHash, h'.rootHash, tree_eq_of_content_eq hcon]
  exact ⟨rfl, rfl⟩

theorem content_insert_delete (hfr : key ∉ content ops) :
    content (ops ++ [.insert key value, .delete key]) = content ops := by
  rw [content_append]
  apply ext_lookup
  intro key'
  change (((content ops).insert key value).erase key).lookup key' = _
  by_cases hkey : key' = key
  · rw [hkey, lookup_erase, lookup_eq_none.mpr hfr]
  · rw [lookup_erase_ne hkey, lookup_insert_of_ne _ hkey]

/-- Two histories with transparent references that leave the same map leave the same root, and so
the same root hash. Inserting and deleting a key that was not there restores the root. -/
theorem root_determined_by_map [Crypto] (load load' : Database → H256 → Call TrieError Node)
    (db db' : Database) (ops ops' : List Op) (frames frames' : Nat)
    (htr : TransparentHistory load db ops) (htr' : TransparentHistory load' db' ops')
    (hops : ∀ op ∈ ops, op.Within frames) (hops' : ∀ op ∈ ops', op.Within frames') :
    ∃ trie trie', (PatriciaTrie.new db).run load frames ops = .ok trie ∧
      (PatriciaTrie.new db').run load' frames' ops' = .ok trie' ∧
      (content ops = content ops' → trie.root = trie'.root ∧ trie.rootHash.1 = trie'.rootHash.1) ∧
      ∀ key value, key ∉ content ops → 2 * key.length < frames →
        TransparentHistory load db (ops ++ [.insert key value, .delete key]) →
        ∃ next, trie.run load frames [.insert key value, .delete key] = .ok next ∧
          next.root = trie.root ∧ next.rootHash.1 = trie.rootHash.1 := by
  obtain ⟨trie, hrun, hrep⟩ := htr.run hops
  obtain ⟨trie', hrun', hrep'⟩ := htr'.run hops'
  refine ⟨trie, trie', hrun, hrun', fun hcon => ?_, ?_⟩
  · exact hrep.same_root hrep' hcon
  · intro key value hfr hkey hmore
    have hpair : ∀ op ∈ [Op.insert key value, .delete key], op.Within frames := by
      simp [Op.Within, hkey]
    have hload : ∀ past, past <+: [Op.insert key value, .delete key] →
        (((Model.new db).run ops).run past).Transparent load := by
      intro past hpast
      rw [Model.run_run]
      exact hmore _ ((prefix_append_right_inj ops).mpr hpast)
    obtain ⟨next, hnext, hrepn⟩ := hrep.run hload hpair
    rw [Model.run_run] at hrepn
    exact ⟨next, hnext, hrepn.same_root hrep (content_insert_delete hfr)⟩

section
open Unhashed

def regrown : List Op :=
  [.insert [0x21] longValue, .insert [0x11, 0x12] [3], .insert [0x11] [1], .delete [0x11, 0x12],
    .insert [] [2]]

theorem transparent_regrown : TransparentHistory loadLong ∅ regrown := by
  intro past hpast
  simp only [regrown, prefix_cons_iff, prefix_nil] at hpast
  rcases hpast with
    rfl | ⟨_, rfl, rfl | ⟨_, rfl, rfl | ⟨_, rfl, rfl | ⟨_, rfl, rfl | ⟨_, rfl, rfl⟩⟩⟩⟩⟩
  · trivial
  · trivial
  all_goals
    intro i
    fin_cases i
    all_goals first
      | exact ⟨rfl, trivial⟩
      | -- the branch for the two keys that start with 0x11
        refine ⟨rfl, rfl, fun j => ?_⟩
        fin_cases j <;> exact ⟨rfl, trivial⟩

theorem root_determined_by_map_regrown :
    ∃ trie trie', (PatriciaTrie.new ∅).run loadLong 8 grown = .ok trie ∧
      (PatriciaTrie.new ∅).run loadLong 8 regrown = .ok trie' ∧
      trie.root = trie'.root ∧ trie.rootHash.1 = trie'.rootHash.1 := by
  obtain ⟨trie, trie', hrun, hrun', hsame, -⟩ := root_determined_by_map loadLong loadLong ∅ ∅ grown
    regrown 8 8 transparent_grown.of_append transparent_regrown (by simp [grown, Op.Within])
    (by simp [regrown, Op.Within])
  exact ⟨trie, trie', hrun, hrun', hsame (by decide)⟩

end

end EthereumRust.Trie
