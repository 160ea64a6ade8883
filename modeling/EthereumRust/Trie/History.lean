import EthereumRust.Trie.Refine

/-!
# Histories of a trie

A history is a sequence of calls on a new trie. Next to the trie runs its model, a radix tree and
the database. As long as every reference resolves to the node it was built from, the trie is the
node of the tree, so it answers like the finite map that the history describes.
-/

namespace EthereumRust.Trie
open Rust Radix Nibbles
open List hiding map

inductive Op where
  | insert (key value : Bytes)
  | delete (key : Bytes)
  | commit
  deriving DecidableEq, Repr

def Op.onMap (map : HashMap Bytes Bytes) : Op → HashMap Bytes Bytes
  | .insert key value => map.insert key value
  | .delete key => map.erase key
  | .commit => map

/-- The map that the operations describe. -/
def content (ops : List Op) : HashMap Bytes Bytes := ops.foldl Op.onMap ∅

/-- The stack has a frame for every nibble of the key. -/
def Op.Within (frames : Nat) : Op → Prop
  | .insert key _ => 2 * key.length < frames
  | .delete key => 2 * key.length < frames
  | .commit => True

def Op.Spares (key : Bytes) : Op → Prop
  | .insert key' _ => key' ≠ key
  | .delete key' => key' ≠ key
  | .commit => True

section
variable [Crypto]

namespace PatriciaTrie

variable (load : Database → H256 → Call TrieError Node) (frames : Nat)

def step (self : PatriciaTrie) : Op → Call TrieError PatriciaTrie
  | .insert key value => self.insert load frames key value
  | .delete key => do return (← self.delete load frames key).2
  | .commit => .ok self.commit.2

def run (self : PatriciaTrie) (ops : List Op) : Call TrieError PatriciaTrie :=
  ops.foldlM (step load frames) self

def attempt (self : PatriciaTrie) (op : Op) : PatriciaTrie :=
  match self.step load frames op with
  | .ok next => next
  | .error _ => self

/-- The trie after the operations, of which the failed ones change nothing. -/
def edit (self : PatriciaTrie) (ops : List Op) : PatriciaTrie :=
  ops.foldl (attempt load frames) self

end PatriciaTrie

structure Model where
  db : Database
  tree : Tree 16 Bytes
  canonical : tree.Canonical

namespace Model

def new (db : Database) : Model := ⟨db, .empty, trivial⟩

def step (self : Model) : Op → Model
  | .insert key value =>
    ⟨self.db, self.tree.insert (Nibbles.fromBytes key) value, self.canonical.insert _ _⟩
  | .delete key => ⟨self.db, (self.tree.delete (Nibbles.fromBytes key)).1, self.canonical.delete _⟩
  | .commit => ⟨self.db.writeBatch (toNode self.tree).commitNode, self.tree, self.canonical⟩

def run (self : Model) (ops : List Op) : Model := ops.foldl step self

def Transparent (load : Database → H256 → Call TrieError Node) (self : Model) : Prop :=
  self.tree.Below (Resolves Call.returns (load self.db))

end Model

structure Represents (trie : PatriciaTrie) (model : Model) : Prop where
  db : trie.db = model.db
  root : trie.root = toNode model.tree
  cachedRootHash : ∀ hash ∈ trie.cachedRootHash, hash = trie.root.hash

/-- At every moment of the history each reference loads the node it was built from. -/
def TransparentHistory (load : Database → H256 → Call TrieError Node) (db : Database)
    (ops : List Op) : Prop :=
  ∀ past, past <+: ops → ((Model.new db).run past).Transparent load

variable {trie : PatriciaTrie} {model : Model}

theorem Represents.get (h : Represents trie model) (hload : model.Transparent load)
    (hkey : 2 * key.length < frames) :
    trie.get load frames key = .ok (model.tree.get (fromBytes key)) := by
  rw [PatriciaTrie.get, h.db, h.root]
  exact getAtNode_toNode model.canonical hload (by rwa [length_fromBytes])

theorem Represents.delete (h : Represents trie model) (hload : model.Transparent load)
    (hkey : 2 * key.length < frames) : ∃ next, trie.delete load frames key =
        .ok ((model.tree.get (fromBytes key)).isSome, next) ∧
      Represents next (model.step (.delete key)) := by
  have hlen : (fromBytes key).length < frames := by rwa [length_fromBytes]
  rw [PatriciaTrie.delete, h.db, h.root, deleteAtNode_toNode model.canonical hload hlen,
    Tree.delete_snd]
  exact ⟨_, rfl, ⟨rfl, rfl, nofun⟩⟩

variable {op : Op}

theorem Represents.step_answers (h : Represents trie model)
    (hload : model.tree.Below (Resolves mode (load model.db))) (hop : op.Within frames) :
    ∃ next, mode.Answers (trie.step load frames op) next ∧ Represents next (model.step op) := by
  cases op with
  | insert key value =>
    have hlen : (fromBytes key).length < frames := by rwa [length_fromBytes]
    rw [PatriciaTrie.step, PatriciaTrie.insert, h.db, h.root]
    refine ⟨_, mode.bind (insertAtNode_toNode model.canonical hload hlen) (mode.ok _), ?_⟩
    exact ⟨rfl, rfl, nofun⟩
  | delete key =>
    have hlen : (fromBytes key).length < frames := by rwa [length_fromBytes]
    rw [PatriciaTrie.step, PatriciaTrie.delete, h.db, h.root]
    refine ⟨_, mode.bind (mode.bind (deleteAtNode_toNode model.canonical hload hlen) (mode.ok _))
      (mode.ok _), ?_⟩
    exact ⟨rfl, rfl, nofun⟩
  | commit =>
    refine ⟨_, mode.ok _, ?_, h.root, ?_⟩
    · rw [PatriciaTrie.commit, h.db, h.root]
      rfl
    · intro hash hhash
      cases hhash
      cases hca : trie.cachedRootHash with
      | none => simp [PatriciaTrie.commit, PatriciaTrie.rootHash, hca]
      | some hash =>
        have := h.cachedRootHash hash hca
        simpa [PatriciaTrie.commit, PatriciaTrie.rootHash, hca] using this

theorem Represents.step (h : Represents trie model) (hload : model.Transparent load)
    (hop : op.Within frames) :
    ∃ next, trie.step load frames op = .ok next ∧ Represents next (model.step op) :=
  h.step_answers hload hop

theorem Model.run_run :
    (model.run past).run ops = model.run (past ++ ops) := (foldl_append ..).symm

theorem Represents.run (h : Represents trie model)
    (hload : ∀ past, past <+: ops → (model.run past).Transparent load)
    (hops : ∀ op ∈ ops, op.Within frames) :
    ∃ last, trie.run load frames ops = .ok last ∧ Represents last (model.run ops) := by
  induction ops generalizing trie model with
  | nil => exact ⟨trie, rfl, h⟩
  | cons op ops ih =>
    obtain ⟨next, heq, hnext⟩ := h.step (hload [] nil_prefix) (hops op mem_cons_self)
    obtain ⟨last, hlast, hrep⟩ := ih hnext
      (fun past hpast => hload (op :: past) (prefix_cons_inj op |>.mpr hpast))
      (fun op hop => hops op (mem_cons_of_mem _ hop))
    refine ⟨last, ?_, hrep⟩
    rw [PatriciaTrie.run, foldlM_cons, heq]
    exact hlast

theorem Model.db_run (h : .commit ∉ ops) (model : Model) : (model.run ops).db = model.db := by
  induction ops generalizing model with
  | nil => rfl
  | cons op ops ih =>
    rw [mem_cons, not_or] at h
    refine (ih h.2 (model.step op)).trans ?_
    cases op with
    | commit => exact (h.1 rfl).elim
    | _ => rfl

theorem Represents.attempt (h : Represents trie model)
    (hload : ∀ hash, ∃ e, load model.db hash = .error e) (hop : op.Within frames) :
    Represents (trie.attempt load frames op) model ∨
      Represents (trie.attempt load frames op) (model.step op) := by
  have hbel : model.tree.Below (Resolves Call.returnsOnly (load model.db)) :=
    .of_forall (resolves_of_error hload) _
  obtain ⟨next, hnext, hrep⟩ := h.step_answers hbel hop
  rw [PatriciaTrie.attempt]
  cases hstep : trie.step load frames op with
  | error e => exact .inl h
  | ok next' =>
    obtain rfl := hnext next' hstep
    exact .inr hrep

theorem Represents.edit (h : Represents trie model)
    (hload : ∀ hash, ∃ e, load model.db hash = .error e) (hcom : .commit ∉ ops)
    (hops : ∀ op ∈ ops, op.Within frames) :
    ∃ done, .commit ∉ done ∧ Represents (trie.edit load frames ops) (model.run done) := by
  induction ops generalizing trie model with
  | nil => exact ⟨[], hcom, h⟩
  | cons op ops ih =>
    rw [mem_cons, not_or] at hcom
    obtain ⟨hop, hcom⟩ := hcom
    have hrest (op' : Op) (hop' : op' ∈ ops) := hops op' (mem_cons_of_mem _ hop')
    rcases h.attempt hload (hops op mem_cons_self) with h | h
    · exact ih h hload hcom hrest
    · have hdb : (model.step op).db = model.db := model.db_run (mt mem_singleton.mp hop)
      obtain ⟨done, hdone, hrep⟩ := ih h (by rwa [hdb]) hcom hrest
      refine ⟨op :: done, ?_, hrep⟩
      rw [mem_cons, not_or]
      exact ⟨hop, hdone⟩

theorem PatriciaTrie.edit_of_run (h : trie.run load frames ops = .ok last) :
    trie.edit load frames ops = last := by
  induction ops generalizing trie with
  | nil => exact Except.ok.inj h
  | cons op ops ih =>
    obtain ⟨next, hstep, hrest⟩ := h.of_bind
    have hatt : trie.attempt load frames op = next := by rw [PatriciaTrie.attempt, hstep]
    rw [PatriciaTrie.edit, foldl_cons, hatt]
    exact ih hrest

omit [Crypto] in
theorem loadNode_of_fresh [ListHeader] (h : ∀ hash, db.lookup (nodeKey hash) = none) (hash : H256) :
    loadNode db hash = Call.fail .keyNotFound := by
  rw [loadNode, h]

theorem represents_new (db : Database) : Represents (.new db) (.new db) := ⟨rfl, rfl, nofun⟩

theorem represents_edit [ListHeader] (hfr : ∀ hash, db.lookup (nodeKey hash) = none)
    (hcom : .commit ∉ ops) (hops : ∀ op ∈ ops, op.Within frames)
    (htrie : trie = (PatriciaTrie.new db).edit loadNode frames ops) :
    ∃ done, Represents trie ((Model.new db).run done) ∧ trie.db = db := by
  obtain ⟨done, hdone, hrep⟩ := (represents_new db).edit
    (fun hash => ⟨_, loadNode_of_fresh hfr hash⟩) hcom hops
  rw [← htrie] at hrep
  exact ⟨done, hrep, hrep.db.trans (Model.db_run hdone _)⟩

theorem Represents.rootHash (h : Represents trie model) :
    trie.rootHash.1 = (toNode model.tree).hash := by
  rw [PatriciaTrie.rootHash, ← h.root]
  cases hca : trie.cachedRootHash with
  | none => rfl
  | some hash => exact h.cachedRootHash hash hca

structure Agrees (tree : Tree 16 Bytes) (map : HashMap Bytes Bytes) : Prop where
  lookup : ∀ key, tree.get (Nibbles.fromBytes key) = map.lookup key
  only : ∀ nibbles, tree.get nibbles ≠ none → ∃ key, nibbles = Nibbles.fromBytes key

theorem Agrees.step (h : Agrees model.tree map) (op : Op) :
    Agrees (model.step op).tree (op.onMap map) := by
  cases op with
  | insert key value =>
    refine ⟨fun key' => ?_, fun nibs => ?_⟩
    · rw [Model.step, Op.onMap, Tree.get_insert, HashMap.lookup_insert_ite, h.lookup]
      simp only [fromBytes_injective.eq_iff]
    · rw [Model.step, Tree.get_insert]
      split
      · exact fun _ => ⟨key, ‹_›⟩
      · exact h.only nibs
  | delete key =>
    refine ⟨fun key' => ?_, fun nibs => ?_⟩
    · rw [Model.step, Op.onMap, Tree.get_delete]
      by_cases hkey : key' = key
      · rw [hkey, if_pos rfl, Finmap.lookup_erase]
      · rw [if_neg (fun heq => hkey (fromBytes_injective heq)), h.lookup,
          Finmap.lookup_erase_ne hkey]
    · rw [Model.step, Tree.get_delete]
      split
      · exact fun hne => (hne rfl).elim
      · exact h.only nibs
  | commit => exact h

theorem agrees_run (db : Database) (ops : List Op) :
    Agrees ((Model.new db).run ops).tree (content ops) := by
  have hrun {model : Model} {map : HashMap Bytes Bytes} (h : Agrees model.tree map) :
      Agrees (model.run ops).tree (ops.foldl Op.onMap map) := by
    induction ops generalizing model map with
    | nil => exact h
    | cons op ops ih => exact ih (h.step op)
  apply hrun
  constructor
  · intro key
    rfl
  · intro nibs hne
    exact (hne rfl).elim

omit [Crypto] in
theorem lookup_onMap_of_spares (h : op.Spares key) :
    (op.onMap map).lookup key = map.lookup key := by
  cases op with
  | insert key' value => exact Finmap.lookup_insert_of_ne _ (Ne.symm h)
  | delete key' => exact Finmap.lookup_erase_ne (Ne.symm h)
  | commit => rfl

end

end EthereumRust.Trie
