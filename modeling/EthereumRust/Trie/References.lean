import EthereumRust.Trie.Counting
import EthereumRust.Trie.History
import EthereumRust.Trie.Reread
import Mathlib.Tactic.FinCases

/-!
# References that resolve

`NodeRef::from_node` keeps a child of 32 bytes and more by its hash and drops the node. Only
`commit` stores nodes, and of the nodes of a trie it stores the root alone: what is inlined in the
root is too short to be stored, and what is behind a hash is not there.
-/

namespace EthereumRust.Trie

open Rust Radix List

section
variable [Crypto]

theorem fromNode_eq_inline (h : NodeRef.fromNode n = .inline m) :
    m = n ∧ m.encodeRaw.length < 32 := by
  unfold NodeRef.fromNode at h
  split at h
  · cases h
    exact ⟨rfl, ‹_›⟩
  · cases h

theorem exists_child_of_refers (hc : t.Canonical) (h : (toNode t).Refers r) :
    ∃ c, c.Child t ∧ c ≠ .empty ∧ r = .fromNode (toNode c) := by
  cases t with
  | empty => exact h.elim
  | leaf k v => exact h.elim
  | ext k c =>
    refine ⟨c, rfl, ?_, h.symm⟩
    rintro rfl
    exact nomatch hc.2.1
  | branch cs v =>
    obtain ⟨i, hi⟩ := h
    have hi : toChild (cs i) = some r := hi
    have hne : cs i ≠ .empty := by
      intro hemp
      rw [hemp] at hi
      cases hi
    rw [toChild_of_ne hne, Option.some.injEq] at hi
    exact ⟨cs i, ⟨i, rfl⟩, hne, hi.symm⟩

theorem toNode_ne_empty (h : t ≠ .empty) : toNode t ≠ .empty := by
  cases t with
  | empty => exact (h rfl).elim
  | _ => nofun

theorem exists_child_of_inlinedIn (hc : t.Canonical) (h : m.InlinedIn (toNode t)) :
    ∃ c, c.Child t ∧ c ≠ .empty ∧ m = toNode c ∧ m.encodeRaw.length < 32 := by
  obtain ⟨c, hch, hne, hr⟩ := exists_child_of_refers hc h.refers
  exact ⟨c, hch, hne, fromNode_eq_inline hr.symm⟩

theorem all_toNode {Q : Tree 16 Bytes → Prop} (hnode : ∀ {t}, Q t → P (toNode t))
    (hcan : ∀ {t}, Q t → t.Canonical) (hch : ∀ {c t}, Q t → c.Child t → Q c)
    (ht : Q t) : (toNode t).All P := by
  induction t using Tree.child_induction with
  | step t ih =>
    refine .intro (hnode ht) fun m hm => ?_
    obtain ⟨c, hc, -, rfl, -⟩ := exists_child_of_inlinedIn (hcan ht) hm
    exact ih c hc (hch ht hc)

theorem tidy_toNode (hc : t.Canonical) : (toNode t).Tidy := by
  refine all_toNode (fun hc m hm => ?_) id Tree.Canonical.child hc
  obtain ⟨c, -, hne, rfl, hsh⟩ := exists_child_of_inlinedIn hc hm
  exact ⟨toNode_ne_empty hne, hsh⟩

def Filled (t : Tree 16 Bytes) : Prop := ∀ key, t.get key ≠ some []

omit [Crypto] in
theorem Filled.child (h : Filled t) (hc : c.Child t) : Filled c := by
  obtain ⟨path, hpath⟩ := hc.exists_path
  intro key
  rw [← hpath]
  exact h (path ++ key)

theorem valuesKept_toNode (hc : t.Canonical) (h : Filled t) : (toNode t).ValuesKept := by
  refine all_toNode (Q := fun t => t.Canonical ∧ Filled t) ?_ And.left
    (fun h hch => ⟨h.1.child hch, h.2.child hch⟩) ⟨hc, h⟩
  rintro t ⟨-, ht⟩ children heq
  cases t with
  | branch cs v =>
    obtain ⟨-, rfl⟩ := Node.branch.inj heq
    exact ht [] rfl
  | _ => cases heq

theorem commitNode_eq {n : Node} (h : n.Tidy) : n.commitNode = n.commitEntry := by
  induction n using Node.inline_induction with
  | step n ih =>
    have hinl {r : NodeRef} (hr : ∀ m, r = .inline m → m.InlinedIn n) : r.commitInline = [] := by
      cases r with
      | hash hash => rw [NodeRef.commitInline]
      | inline m =>
        have hm := hr m rfl
        have hsh := (h.here m hm).2
        rw [NodeRef.commitInline, ih m hm (h.inside hm), Node.commitEntry, if_neg (by omega)]
    cases n with
    | empty => rw [Node.commitNode]
    | leaf key value => rw [Node.commitNode]
    | extension key node => rw [Node.commitNode, hinl fun m hm => hm, append_nil]
    | branch cs value =>
      have hch (i : Fin 16) : commitChild (cs i) = [] := by
        cases hi : cs i with
        | none => rw [commitChild]
        | some r => rw [commitChild, hinl fun m hm => ⟨i, by rw [hi, hm]⟩]
      rw [Node.commitNode]
      simp [hch]

def treeAfter (ops : List Op) : Tree 16 Bytes := ((Model.new ∅).run ops).tree

theorem tree_run : ((Model.new db).run ops).tree = treeAfter ops := by
  have hrun {model model' : Model} (h : model.tree = model'.tree) :
      (model.run ops).tree = (model'.run ops).tree := by
    induction ops generalizing model model' with
    | nil => exact h
    | cons op ops ih =>
      apply ih
      cases op <;> simp only [Model.step, h]
  exact hrun rfl

def Committed (ops : List Op) (t : Tree 16 Bytes) : Prop :=
  ∃ past, past ++ [.commit] <+: ops ∧ treeAfter past = t

/-- Committed roots with one hash have one encoding. -/
def CollisionFree (ops : List Op) : Prop :=
  ∀ t t', Committed ops t → Committed ops t' → (toNode t).hash = (toNode t').hash →
    (toNode t).encodeRaw = (toNode t').encodeRaw

theorem Committed.mono (h : Committed ops t) (hops : ops <+: ops') : Committed ops' t := by
  obtain ⟨past, hpast, ht⟩ := h
  exact ⟨past, hpast.trans hops, ht⟩

theorem CollisionFree.mono (h : CollisionFree ops') (hops : ops <+: ops') : CollisionFree ops :=
  fun t t' ht ht' => h t t' (ht.mono hops) (ht'.mono hops)

theorem committed_snoc {op : Op}
    (h : Committed (ops ++ [op]) t) : Committed ops t ∨ op = .commit ∧ treeAfter ops = t := by
  obtain ⟨past, hpast, ht⟩ := h
  rcases prefix_concat_iff.mp hpast with heq | hpast
  · obtain ⟨rfl, hop⟩ := append_inj' heq rfl
    exact .inr ⟨(singleton_inj.mp hop).symm, ht⟩
  · exact .inl ⟨past, hpast, ht⟩

omit [Crypto] in
theorem nodeKey_injective (heq : nodeKey h = nodeKey h') : h = h' := Subtype.ext (cons.inj heq).2

theorem lookup_commitNode {n : Node} (htidy : n.Tidy) (db : Database) :
    (db.writeBatch n.commitNode).lookup key =
      if 32 ≤ n.encodeRaw.length ∧ key = nodeKey n.hash then some n.encodeRaw
      else db.lookup key := by
  rw [commitNode_eq htidy, Node.commitEntry]
  by_cases hlen : 32 ≤ n.encodeRaw.length
  · rw [if_pos hlen]
    change (db.insert (nodeKey n.hash) n.encodeRaw).lookup key = _
    simp only [HashMap.lookup_insert_ite, hlen, true_and]
  · rw [if_neg hlen, if_neg fun h => hlen h.1]
    rfl

theorem lookup_of_committed (db : Database) (hfree : CollisionFree ops)
    (h : Committed ops t) (hlen : 32 ≤ (toNode t).encodeRaw.length) :
    ((Model.new db).run ops).db.lookup (nodeKey (toNode t).hash) = some (toNode t).encodeRaw := by
  induction ops using reverseRecOn with
  | nil =>
    obtain ⟨past, hpast, -⟩ := h
    simp at hpast
  | append_singleton ops op ih =>
    have hops : ops <+: ops ++ [op] := prefix_append ..
    rw [← Model.run_run]
    by_cases hop : op = .commit
    · subst hop
      have hnow : Committed (ops ++ [.commit]) ((Model.new db).run ops).tree :=
        ⟨ops, prefix_rfl, tree_run.symm⟩
      change (Database.writeBatch _ (toNode ((Model.new db).run ops).tree).commitNode).lookup _ = _
      rw [lookup_commitNode (tidy_toNode (Model.canonical _))]
      split
      · rename_i hkey
        rw [hfree _ _ h hnow (nodeKey_injective hkey.2)]
      · rename_i hkey
        rcases committed_snoc h with h | ⟨-, ht⟩
        · exact ih (hfree.mono hops) h
        · rw [tree_run, ht] at hkey
          exact (hkey ⟨hlen, rfl⟩).elim
    · have h := (committed_snoc h).resolve_right fun hcom => hop hcom.1
      rw [Model.db_run (mt mem_singleton.mp (Ne.symm hop))]
      exact ih (hfree.mono hops) h

omit [Crypto] in
theorem mem_of_lookup_content {ops : List Op} {key value : Bytes}
    (h : (content ops).lookup key = some value) : .insert key value ∈ ops := by
  induction ops using reverseRecOn with
  | nil => simp [content] at h
  | append_singleton ops op ih =>
    rw [content, foldl_append] at h
    rw [mem_append, mem_singleton]
    by_cases hspa : op.Spares key
    · exact .inl (ih (by rwa [← lookup_onMap_of_spares hspa]))
    · cases op with
      | insert key' value' =>
        obtain rfl := not_not.mp hspa
        obtain rfl : value' = value := by simpa [Op.onMap] using h
        exact .inr rfl
      | delete key' =>
        obtain rfl := not_not.mp hspa
        simp [Op.onMap] at h
      | commit => exact (hspa trivial).elim

theorem filled_run (h : ∀ key, .insert key [] ∉ ops) : Filled ((Model.new db).run ops).tree := by
  intro nibs hget
  have hagr := agrees_run db ops
  obtain ⟨key, rfl⟩ := hagr.only nibs (by simp [hget])
  rw [hagr.lookup] at hget
  exact h key (mem_of_lookup_content hget)

/-- The tree can be read back: it is inlined, or committed with paths that storage keeps. -/
def Kept (ops : List Op) (t : Tree 16 Bytes) : Prop :=
  (toNode t).encodeRaw.length < 32 ∨
    Committed ops t ∧ (toNode t).Trimmed ∧ (toNode t).encodeRaw.length < 2 ^ 32

theorem Kept.resolves [ListHeader] [LawfulListHeader]
    (hfree : CollisionFree ops) (hc : t.Canonical) (hfil : Filled t) (h : Kept ops t) :
    Resolves Call.returns (loadNode ((Model.new db).run ops).db) t := by
  unfold Resolves NodeRef.fromNode
  by_cases hsh : (toNode t).encodeRaw.length < 32
  · rw [if_pos hsh]
    rfl
  · rw [if_neg hsh]
    obtain ⟨hcom, htrm, hlen⟩ := h.resolve_left hsh
    have hlong := Nat.le_of_not_lt hsh
    have hget := lookup_of_committed db hfree hcom hlong
    change loadNode _ _ = _
    rw [loadNode, hget]
    change Node.decodeRaw _ = _
    rw [Node.decodeRaw_encodeRaw (Node.ne_empty_of_long hlong) (tidy_toNode hc) hlen,
      Node.reread_eq_self htrm (valuesKept_toNode hc hfil)]

theorem transparent_run [ListHeader] [LawfulListHeader]
    (hfree : CollisionFree ops) (hval : ∀ key, .insert key [] ∉ ops)
    (hkept : (treeAfter ops).Below (Kept ops)) : ((Model.new db).run ops).Transparent loadNode := by
  rw [← tree_run] at hkept
  exact hkept.imp (Q := fun t => t.Canonical ∧ Filled t) ⟨Model.canonical _, filled_run hval⟩
    (fun h hch => ⟨h.1.child hch, h.2.child hch⟩) fun h hc => hc.resolves hfree h.1 h.2

inductive Occurs (load : H256 → Call TrieError Node) (root : Node) : NodeRef → Prop where
  | here : root.Refers r → Occurs load root r
  | behind : Occurs load root r → resolveNodeRef load r = .ok n → n.Refers r' → Occurs load root r'

theorem Occurs.exists_tree (hc : t.Canonical)
    (hload : t.Below (Resolves Call.returns load)) (h : Occurs load (toNode t) r) :
    ∃ c : Tree 16 Bytes, c.Canonical ∧ c.Below (Resolves Call.returns load) ∧
      r = .fromNode (toNode c) ∧ resolveNodeRef load r = .ok (toNode c) := by
  have href {t : Tree 16 Bytes} (hc : t.Canonical)
      (hload : t.Below (Resolves Call.returns load)) {r : NodeRef} (h : (toNode t).Refers r) :
      ∃ c : Tree 16 Bytes, c.Canonical ∧ c.Below (Resolves Call.returns load) ∧
        r = .fromNode (toNode c) ∧ resolveNodeRef load r = .ok (toNode c) := by
    obtain ⟨c, hch, -, rfl⟩ := exists_child_of_refers hc h
    obtain ⟨hres, hbel⟩ := hload.child hch
    exact ⟨c, hc.child hch, hbel, rfl, hres⟩
  induction h with
  | here h => exact href hc hload h
  | behind _ hn h ih =>
    obtain ⟨c, hc, hbel, -, hres⟩ := ih
    obtain rfl := Except.ok.inj (hn.symm.trans hres)
    exact href hc hbel h

theorem fromNode_eq_hash {hash : H256} (h : NodeRef.fromNode n = .hash hash) : n.hash = hash := by
  unfold NodeRef.fromNode at h
  split at h
  · cases h
  · exact NodeRef.hash.inj h

theorem Occurs.resolves (hc : t.Canonical) (hload : t.Below (Resolves Call.returns load))
    {hash : H256} (h : Occurs load (toNode t) (.hash hash)) :
    ∃ n, resolveNodeRef load (.hash hash) = .ok n ∧ n.hash = hash := by
  obtain ⟨c, -, -, hr, hn⟩ := h.exists_tree hc hload
  exact ⟨toNode c, hn, fromNode_eq_hash hr.symm⟩

end

/-- In a history where every node below a root is short, or was the root at an earlier commit, all
references in all states resolve, to nodes with the hash in the reference, and no call fails. -/
theorem references_resolve [Crypto] [ListHeader] [LawfulListHeader] (db : Database) (ops : List Op)
    (frames : Nat) (hops : ∀ op ∈ ops, op.Within frames) (hval : ∀ key, .insert key [] ∉ ops)
    (hfree : CollisionFree ops)
    (hkept : ∀ past, past <+: ops → (treeAfter past).Below (Kept past)) :
    ∀ past, past <+: ops →
      ∃ trie, (PatriciaTrie.new db).run loadNode frames past = .ok trie ∧
        (∀ hash, Occurs (loadNode trie.db) trie.root (.hash hash) →
          ∃ n, resolveNodeRef (loadNode trie.db) (.hash hash) = .ok n ∧ n.hash = hash) ∧
        ∀ key value, 2 * key.length < frames →
          (∃ found, trie.get loadNode frames key = .ok found) ∧
          (∃ next, trie.insert loadNode frames key value = .ok next) ∧
          ∃ next, trie.delete loadNode frames key = .ok next := by
  intro past hpast
  have htr (before : List Op) (hbef : before <+: past) :
      ((Model.new db).run before).Transparent loadNode := by
    have hear := hbef.trans hpast
    exact transparent_run (hfree.mono hear) (fun key hkey => hval key (hear.subset hkey))
      (hkept before hear)
  have hnow := htr past prefix_rfl
  obtain ⟨trie, hrun, hrep⟩ := (represents_new db).run htr fun op hop => hops op (hpast.subset hop)
  refine ⟨trie, hrun, fun hash hocc => ?_, fun key value hkey => ⟨?_, ?_, ?_⟩⟩
  · rw [hrep.root] at hocc
    rw [hrep.db] at hocc ⊢
    exact hocc.resolves (Model.canonical _) hnow
  · exact ⟨_, hrep.get hnow hkey⟩
  · have hwit : Op.Within frames (.insert key value) := hkey
    obtain ⟨next, hnext, -⟩ := hrep.step hnow hwit
    exact ⟨next, hnext⟩
  · obtain ⟨next, hnext, -⟩ := hrep.delete hnow hkey
    exact ⟨_, hnext⟩

section
open Sized Counting

def sevens : Bytes := List.replicate 10 7

/-- What is committed as a root, and comes to stand behind an extension afterwards. -/
def moved : List Op := [.insert [0x11] sevens, .insert [0x21] sevens, .commit, .delete [0x11],
  .delete [0x21], .insert [0xaa, 0x11] sevens, .insert [0xaa, 0x21] sevens]

def paired : List Op := [.insert [0x11] sevens, .insert [0x21] sevens]

theorem eq_of_committed_moved (h : Committed moved t) : treeAfter paired = t := by
  obtain ⟨past, ⟨rest, hrest⟩, rfl⟩ := h
  rcases past with _ | ⟨_, _ | ⟨_, _ | ⟨_, past⟩⟩⟩
  · cases hrest
  · cases hrest
  · cases hrest
    rfl
  · have hmem : Op.commit ∈ moved.drop 3 := by
      rw [← hrest]
      simp
    simp [moved] at hmem

theorem trimmed_paired : (toNode (treeAfter paired)).Trimmed := by
  have hleaf : (Node.leaf [1] sevens).Trimmed := .intro rfl fun _ hm => hm.elim
  refine .intro rfl fun m ⟨i, hi⟩ => ?_
  fin_cases i <;> cases hi <;> exact hleaf

theorem kept_moved (past : List Op) (hpast : past <+: moved) :
    (treeAfter past).Below (Kept past) := by
  have hbra {past : List Op} : (treeAfter paired).Below (Kept past) := by
    intro i
    fin_cases i <;> exact ⟨.inl (by decide), trivial⟩
  simp only [moved, prefix_cons_iff, prefix_nil] at hpast
  rcases hpast with rfl | ⟨_, rfl, rfl | ⟨_, rfl, rfl | ⟨_, rfl, rfl | ⟨_, rfl, rfl |
    ⟨_, rfl, rfl | ⟨_, rfl, rfl | ⟨_, rfl, rfl⟩⟩⟩⟩⟩⟩⟩
  · trivial
  · trivial
  · exact hbra
  · exact hbra
  · trivial
  · trivial
  · trivial
  · have hmov : treeAfter moved = .ext [10, 10] (treeAfter paired) := rfl
    rw [← moved, hmov]
    exact ⟨.inr ⟨⟨paired, ⟨_, rfl⟩, rfl⟩, trimmed_paired, by decide⟩, hbra⟩

theorem references_resolve_moved :
    ∃ trie hash n, (PatriciaTrie.new ∅).run loadNode 8 moved = .ok trie ∧
      Occurs (loadNode trie.db) trie.root (.hash hash) ∧
      resolveNodeRef (loadNode trie.db) (.hash hash) = .ok n ∧ n.hash = hash := by
  have hfree : CollisionFree moved := by
    intro t t' ht ht' _
    rw [← eq_of_committed_moved ht, ← eq_of_committed_moved ht']
  obtain ⟨trie, hrun, hres, -⟩ := references_resolve ∅ moved 8 (by simp [moved, Op.Within])
    (by simp [moved, sevens]) hfree kept_moved moved prefix_rfl
  obtain ⟨hash, hocc⟩ : ∃ hash, Occurs (loadNode trie.db) trie.root (.hash hash) := by
    cases hrun
    exact ⟨_, .here rfl⟩
  obtain ⟨n, hn, hhash⟩ := hres hash hocc
  exact ⟨trie, hash, n, hrun, hocc, hn, hhash⟩

end

open Sized Counting in
/-- The leaf of a long value next to another one is kept by its hash and stored nowhere: not before
the commit, and not by it. -/
theorem reference_unresolved :
    (∃ trie, (PatriciaTrie.new ∅).run loadNode 8
        [.insert [0x11] [1], .insert [0x21] (List.replicate 40 7)] = .ok trie ∧
      trie.get loadNode 8 [0x21] = Call.fail .keyNotFound) ∧
    ∃ trie, (PatriciaTrie.new ∅).run loadNode 8
        [.insert [0x11] [1], .insert [0x21] (List.replicate 40 7), .commit] = .ok trie ∧
      trie.get loadNode 8 [0x21] = Call.fail .keyNotFound := by
  exact ⟨⟨_, rfl, rfl⟩, _, rfl, rfl⟩

end EthereumRust.Trie
