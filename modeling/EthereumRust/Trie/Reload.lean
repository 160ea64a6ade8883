import EthereumRust.Trie.Lost
import EthereumRust.Trie.SameCode

/-!
# Opening a trie by its root hash

`commit` stores a root of 32 bytes and more. `new_with_root` reads it back, without what storage
loses, and nothing that the root knows by a hash is there to be read.
-/

namespace EthereumRust.Trie
open Rust Radix List Nibbles

def Node.Avoids (hash : H256) (n : Node) : Prop := n.All fun m => ¬m.Refers (.hash hash)

section
variable {n : Node} {hash : H256}

theorem Node.Avoids.find (h : n.Avoids hash) (key rest : Nibbles) :
    n.find key ≠ .reference hash rest := by
  induction n, key using Node.walk_induction with
  | stop n key place hstp =>
    rw [hstp.find]
    rintro rfl
    cases hstp with
    | extension hk => exact h.here rfl
    | branch hch => exact h.here ⟨_, hch⟩
  | step n key m key' hstps ih =>
    rw [hstps.find]
    exact ih (h.inside hstps.inlinedIn)

theorem NodeRef.reread_eq_hash {r : NodeRef} (h : r.reread = .hash hash) : r = .hash hash := by
  cases r with
  | hash hash' =>
    exact h
  | inline m =>
    cases h

theorem Node.Refers.of_reread (h : n.reread.Refers (.hash hash)) : n.Refers (.hash hash) := by
  cases n with
  | empty =>
    exact h
  | leaf key value =>
    exact h
  | extension key node =>
    exact NodeRef.reread_eq_hash h
  | branch cs value =>
    obtain ⟨i, hi⟩ := h
    have hi : rereadChild (cs i) = some (.hash hash) := hi
    refine ⟨i, ?_⟩
    cases hch : cs i with
    | none =>
      rw [hch, rereadChild] at hi
      cases hi
    | some r =>
      rw [hch] at hi
      rw [NodeRef.reread_eq_hash (Option.some.inj hi)]

theorem Node.Avoids.reread (h : n.Avoids hash) : n.reread.Avoids hash :=
  Node.All.reread (fun _ havo href => havo href.of_reread) h

theorem Node.avoids_of_short (h : n.encodeRaw.length < 32) (hash : H256) : n.Avoids hash := by
  refine Node.all_of_short (fun m hm href => ?_) h
  have hlt := href.length_lt
  rw [NodeRef.bytes, hash.toList_length] at hlt
  omega

theorem Node.inside_of_short (h : n.encodeRaw.length < 32) (key : Nibbles) :
    (n.find key).Inside := by
  cases hpl : n.find key with
  | reference hash rest => exact ((n.avoids_of_short h hash).find key rest hpl).elim
  | _ => trivial

end

section
variable [Crypto]

omit [Crypto] in
theorem SameItems.refers (h : SameItems n root) (hr : root.Refers r) :
    ∃ r', n.Refers r' ∧ r'.bytes = r.bytes := by
  cases h with
  | empty => exact hr.elim
  | leaf => exact hr.elim
  | extension hbs =>
    obtain rfl := hr
    exact ⟨_, rfl, hbs⟩
  | @branch cs _ _ _ hchs hval =>
    obtain ⟨i, hi⟩ := hr
    have hbs := hchs i
    rw [hi, childBytes] at hbs
    cases hch : cs i with
    | none =>
      rw [hch] at hbs
      exact (r.bytes_ne_nil hbs.symm).elim
    | some r' =>
      rw [hch] at hbs
      exact ⟨r', ⟨i, hch⟩, hbs⟩

variable {t : Tree 16 Bytes}

section
variable (hc : t.Canonical) (hlen : (toNode t).encodeRaw.length < 2 ^ 32)
  (hbin : (toNode t).HashBinds)
include hc hlen hbin

theorem not_refers_own_hash : ¬(toNode t).Refers (.hash (toNode t).hash) := by
  intro hself
  -- a tree with the encoding of the root would have a child with it, and so on without end
  have hnone (c : Tree 16 Bytes) (hcan : c.Canonical)
      (hsame : (toNode c).encodeRaw = (toNode t).encodeRaw) : False := by
    induction c using Tree.child_induction with
    | step c ih =>
      obtain ⟨r, hr, hbs⟩ := (sameItems_of_encodeRaw_eq hsame hlen).refers hself
      obtain ⟨c', hch, -, rfl⟩ := exists_child_of_refers hcan hr
      refine ih c' hch (hcan.child hch) (hbin _ ?_)
      cases href : NodeRef.fromNode (toNode c') with
      | hash hash =>
        rw [href] at hbs
        rw [fromNode_eq_hash href]
        exact Subtype.ext hbs
      | inline m =>
        rw [href, NodeRef.bytes, NodeRef.bytes] at hbs
        have hsh := (fromNode_eq_inline href).2
        rw [hbs, List.Vector.toList_length] at hsh
        exact (lt_irrefl 32 hsh).elim
  exact hnone t hc rfl

theorem avoids_own_hash : (toNode t).Avoids (toNode t).hash := by
  refine .intro (not_refers_own_hash hc hlen hbin) fun m hm => ?_
  obtain ⟨-, -, -, -, hsh⟩ := exists_child_of_inlinedIn hc hm
  exact m.avoids_of_short hsh _

end

theorem value_find_toNode (hc : t.Canonical) (h : ((toNode t).find key).Inside) :
    ((toNode t).find key).value = t.get key := by
  let load : H256 → Call TrieError Node := fun _ => Call.fail .keyNotFound
  have hbel : t.Below (Resolves Call.returnsOnly load) :=
    .of_forall (resolves_of_error fun _ => ⟨_, rfl⟩) t
  have hlen := Nat.lt_succ_self key.length
  exact getAtNode_toNode hc hbel hlen _ (getAtNode_of_inside (walkable_toNode hc) h hlen)

theorem peopled_toNode (hc : t.Canonical) : (toNode t).Peopled := by
  refine all_toNode (fun {t} hc extKey m heq => ?_) id Tree.Canonical.child hc
  have hm : m.InlinedIn (toNode t) := by
    rw [heq]
    exact rfl
  obtain ⟨c, hch, hne, rfl, hsh⟩ := exists_child_of_inlinedIn hc hm
  have hcan := hc.child hch
  obtain ⟨key, hkey⟩ := hcan.exists_get hne
  obtain ⟨value, hval⟩ := Option.ne_none_iff_exists'.mp hkey
  refine ⟨key, value, Node.holds_of_find ?_⟩
  rw [value_find_toNode hcan ((toNode c).inside_of_short hsh key), hval]

omit [Crypto] in
theorem Node.hashPathsKept_of_short {n : Node} (h : n.encodeRaw.length < 32) : n.HashPathsKept := by
  refine Node.all_of_short (fun m hm extKey hash heq => ?_) h
  refine ((m.avoids_of_short hm hash).here ?_).elim
  rw [heq]
  exact rfl

theorem exists_of_not_hashPathsKept (hc : t.Canonical) (h : ¬(toNode t).HashPathsKept) :
    ∃ extKey hash, toNode t = .extension extKey (.hash hash) ∧ extKey.trim ≠ extKey := by
  by_contra hnot
  refine h (.intro (fun extKey hash heq => ?_) fun m hm => ?_)
  · by_contra htrim
    exact hnot ⟨extKey, hash, heq, htrim⟩
  · obtain ⟨-, -, -, -, hsh⟩ := exists_child_of_inlinedIn hc hm
    exact Node.hashPathsKept_of_short hsh

section
variable {load : H256 → Call TrieError Node} {t : Tree 16 Bytes} (hc : t.Canonical)
  (hlen : (toNode t).encodeRaw.length < 2 ^ 32) (hbin : (toNode t).HashBinds)
  (hload : ∀ hash, hash ≠ (toNode t).hash → load hash = .error e)
include hc hlen hbin hload

theorem getAtNode_reread_of_reference {hash : H256}
    (h : (toNode t).reread.find key = .reference hash rest) :
    getAtNode load (key.length + 1) (toNode t).reread key = .error e := by
  have hne : hash ≠ (toNode t).hash := by
    rintro rfl
    exact (avoids_own_hash hc hlen hbin).reread.find key rest h
  exact getAtNode_of_reference (walkable_toNode hc).reread h (hload hash hne) (Nat.lt_succ_self _)

theorem getAtNode_ne_of_lost (hheld : (toNode t).Holds key value)
    (hlost : ¬(toNode t).reread.Holds key value) :
    getAtNode load (key.length + 1) (toNode t).reread key ≠
      getAtNode load (key.length + 1) (toNode t) key := by
  have hfrs := Nat.lt_succ_self key.length
  obtain ⟨hins, hval⟩ := hheld.find
  rw [getAtNode_of_inside (walkable_toNode hc) hins hfrs, hval]
  intro heq
  by_cases hins' : ((toNode t).reread.find key).Inside
  · rw [getAtNode_of_inside (walkable_toNode hc).reread hins' hfrs] at heq
    exact hlost (Node.holds_of_find (Except.ok.inj heq))
  · cases hpl : (toNode t).reread.find key with
    | reference hash rest =>
      rw [getAtNode_reread_of_reference hc hlen hbin hload hpl] at heq
      cases heq
    | _ =>
      rw [hpl] at hins'
      exact hins' trivial

theorem exists_getAtNode_ne (hbs : ∀ nibs, t.get nibs ≠ none → ∃ key, nibs = fromBytes key)
    (h : ¬(toNode t).Clean) :
    ∃ key, getAtNode load (2 * key.length + 1) (toNode t).reread (fromBytes key) ≠
      getAtNode load (2 * key.length + 1) (toNode t) (fromBytes key) := by
  by_cases hpat : (toNode t).HashPathsKept
  · obtain ⟨nibs, value, hheld, hlost⟩ := Node.exists_lost (peopled_toNode hc) hpat h
    have hget : t.get nibs ≠ none := by
      rw [← value_find_toNode hc hheld.find.1, hheld.find.2]
      exact Option.some_ne_none value
    obtain ⟨key, rfl⟩ := hbs nibs hget
    refine ⟨key, ?_⟩
    have hne := getAtNode_ne_of_lost hc hlen hbin hload hheld hlost
    rwa [length_fromBytes] at hne
  · -- the key that leaves the path of the root at its last nibble
    obtain ⟨extKey, hash, hroot, htrim⟩ := exists_of_not_hashPathsKept hc hpat
    obtain ⟨heven, hext⟩ := eq_of_trim_ne htrim
    have hkey : fromBytes (packed (extKey.trim ++ [1])) = extKey.trim ++ [1] := by
      apply fromBytes_packed
      rw [hext] at heven
      simpa using heven
    have hlength := congrArg length hkey
    rw [length_fromBytes] at hlength
    refine ⟨packed (extKey.trim ++ [1]), ?_⟩
    rw [hkey, hlength]
    have hstp : (toNode t).Stops (extKey.trim ++ [1]) .absent := by
      rw [hroot]
      apply Node.Stops.otherPath
      intro hpath
      have hlast : extKey.length = (extKey.trim ++ [1]).length := by
        conv_lhs => rw [hext]
        simp
      have heq := hext.symm.trans (hpath.eq_of_length hlast)
      exact absurd (append_cancel_left heq) (by decide)
    have hfind : (toNode t).reread.find (extKey.trim ++ [1]) = .reference hash [1] := by
      rw [hroot, Node.reread, NodeRef.reread, Node.find_extension, if_pos (prefix_append ..),
        drop_left, NodeRef.find]
    rw [getAtNode_reread_of_reference hc hlen hbin hload hfind, getAtNode_stops hstp]
    intro heq
    cases heq

end

section
variable [ListHeader] {db : Database} {root : Node}

theorem loadNode_committed (htidy : root.Tidy) (hlong : 32 ≤ root.encodeRaw.length) :
    loadNode (db.writeBatch root.commitNode) root.hash = Node.decodeRaw root.encodeRaw := by
  rw [loadNode, lookup_commitNode htidy, if_pos ⟨hlong, rfl⟩]

theorem loadNode_uncommitted (hfr : ∀ hash, db.lookup (nodeKey hash) = none) (htidy : root.Tidy)
    {hash : H256} (h : 32 ≤ root.encodeRaw.length → hash ≠ root.hash) :
    loadNode (db.writeBatch root.commitNode) hash = Call.fail .keyNotFound := by
  rw [loadNode, lookup_commitNode htidy,
    if_neg fun hkey => h hkey.1 (nodeKey_injective hkey.2), hfr]

end

end

/-- For every trie edited on a database without nodes: after `commit` the trie that is opened with
the root hash answers every `get` like the original if and only if the root is stored and nothing in
it is lost by storage. -/
theorem reload_agrees_iff [Crypto] [ListHeader] [LawfulListHeader] (db : Database)
    (hfr : ∀ hash, db.lookup (nodeKey hash) = none) (ops : List Op) (frames : Nat)
    (hcommit : .commit ∉ ops) (hops : ∀ op ∈ ops, op.Within frames) (trie : PatriciaTrie)
    (htrie : trie = (PatriciaTrie.new db).edit loadNode frames ops)
    (hlen : trie.root.encodeRaw.length < 2 ^ 32) (hbin : trie.root.HashBinds) :
    (∀ key frames, 2 * key.length < frames →
        (do let reloaded ← PatriciaTrie.newWithRoot trie.commit.2.db trie.commit.1
            reloaded.get loadNode frames key) = trie.commit.2.get loadNode frames key) ↔
      32 ≤ trie.root.encodeRaw.length ∧ trie.root.Trimmed ∧ trie.root.ValuesKept := by
  obtain ⟨done, hrep, hdb⟩ := represents_edit hfr hcommit hops htrie
  have htidy := hrep.tidy
  have hwalk := hrep.walkable
  have hhash : trie.commit.1 = trie.root.hash := hrep.rootHash_eq
  have hcom : trie.commit.2.db = db.writeBatch trie.root.commitNode := by
    rw [← hdb]
    rfl
  have hroot : trie.commit.2.root = trie.root := rfl
  simp only [PatriciaTrie.newWithRoot, PatriciaTrie.get, hhash, hcom, hroot]
  constructor
  · intro hagr
    have hlong : 32 ≤ trie.root.encodeRaw.length := by
      by_contra hsh
      have heq := hagr [] 1 (by decide)
      have hins := trie.root.inside_of_short (Nat.lt_of_not_le hsh) (fromBytes [])
      rw [loadNode_uncommitted hfr htidy fun hlong => (hsh hlong).elim,
        getAtNode_of_inside hwalk hins (by decide)] at heq
      cases heq
    refine ⟨hlong, ?_⟩
    by_contra hcle
    have hload (hash : H256) (hh : hash ≠ trie.root.hash) :
        loadNode (db.writeBatch trie.root.commitNode) hash = .error (.err .keyNotFound) :=
      loadNode_uncommitted hfr htidy fun _ => hh
    have hrel : loadNode (db.writeBatch trie.root.commitNode) trie.root.hash =
        .ok trie.root.reread := by
      rw [loadNode_committed htidy hlong,
        Node.decodeRaw_encodeRaw (Node.ne_empty_of_long hlong) htidy hlen]
    rw [hrep.root] at hlen hbin hcle hload hrel hagr
    obtain ⟨key, hkey⟩ := exists_getAtNode_ne (Model.canonical _) hlen hbin hload
      (agrees_run db done).only hcle
    have heq := hagr key _ (Nat.lt_succ_self _)
    rw [hrel] at heq
    exact hkey heq
  · rintro ⟨hlong, htrm, hkept⟩ key frames -
    rw [loadNode_committed htidy hlong,
      Node.decodeRaw_encodeRaw (Node.ne_empty_of_long hlong) htidy hlen,
      Node.reread_eq_self htrm hkept]
    rfl

section
open Forked Counting

theorem reload_agrees_iff_forked :
    ∃ trie, (PatriciaTrie.new ∅).run loadNode 8 forked = .ok trie ∧
      (do let reloaded ← PatriciaTrie.newWithRoot trie.commit.2.db trie.commit.1
          reloaded.get loadNode 8 [0x11]) = trie.commit.2.get loadNode 8 [0x11] := by
  obtain ⟨trie, hrun, hrep⟩ := run_forked
  have hroot : trie.root = toNode (treeAfter forked) := hrep.root
  refine ⟨trie, hrun, (reload_agrees_iff ∅ (fun _ => rfl) forked 8 (by simp [forked])
    (by simp [forked, Op.Within]) trie (PatriciaTrie.edit_of_run hrun).symm ?_ ?_).mpr
    ⟨?_, ?_, ?_⟩ [0x11] 8 (by decide)⟩
  · rw [hroot]
    decide +kernel
  · rw [hroot]
    exact hashBinds_forked
  · rw [hroot]
    decide +kernel
  · rw [hroot]
    exact trimmed_forked
  · rw [hrep.root]
    exact valuesKept_toNode (Model.canonical _) (filled_run (by simp [forked]))

/-- A root of less than 32 bytes is not stored, and a path that ends in zero comes back shorter. -/
theorem reload_differs :
    (∃ trie, (PatriciaTrie.new ∅).run loadNode 8 [.insert [0x11] [1]] = .ok trie ∧
      trie.commit.2.get loadNode 8 [0x11] = .ok (some [1]) ∧
      (do let reloaded ← PatriciaTrie.newWithRoot trie.commit.2.db trie.commit.1
          reloaded.get loadNode 8 [0x11]) = Call.fail .keyNotFound) ∧
    ∃ trie, (PatriciaTrie.new ∅).run loadNode 8 [.insert [0x10] (replicate 40 7)] = .ok trie ∧
      trie.commit.2.get loadNode 8 [0x10] = .ok (some (replicate 40 7)) ∧
      (do let reloaded ← PatriciaTrie.newWithRoot trie.commit.2.db trie.commit.1
          reloaded.get loadNode 8 [0x10]) = .ok none := by
  refine ⟨⟨_, rfl, rfl, rfl⟩, _, rfl, rfl, ?_⟩
  decide +kernel

end

end EthereumRust.Trie
