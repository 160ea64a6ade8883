import EthereumRust.Trie.Find

/-!
# Nodes with the same encoding

The hash of a node stands for its encoding. The encoding determines the node up to two things: an
empty value in a branch is written like none, and a hash like an inlined node that is encoded as its
32 bytes.
-/

namespace EthereumRust.Trie
open Rust Rlp
open List hiding tail

def Node.item (n : Node) : RlpItem :=
  match n with
  | .empty => .string []
  | _ => .list (n.items.map .string)

theorem Node.reads_encodeRaw {n : Node} (h : n.encodeRaw.length < 2 ^ 32) :
    Reads n.item n.encodeRaw := by
  have hlist (hne : n ≠ .empty) : Reads (.list (n.items.map .string)) n.encodeRaw := by
    have hlt := length_items_lt hne
    rw [Node.encodeRaw_eq hne]
    refine reads_encodePayload (readsAll_map_string fun s hs => ?_) (by omega)
    have hs := length_le_flatMap_encodeBytes hs
    omega
  cases n with
  | empty =>
    exact reads_encodeBytes (by decide)
  | _ =>
    apply hlist
    intro h
    cases h

theorem Node.item_eq {n n' : Node} (h : n.encodeRaw = n'.encodeRaw)
    (hlen : n'.encodeRaw.length < 2 ^ 32) : n.item = n'.item := by
  have hsl : n'.encodeRaw.length ≤ isizeMax := le_trans (le_of_lt hlen) pow_le_isizeMax
  have hread := decode_yields (reads_encodeRaw (n := n) (by rwa [h])) (.new n'.encodeRaw) [] hsl
    (by rw [Decoder.rest_new, h, append_nil])
  have hread' := decode_yields (reads_encodeRaw hlen) (.new n'.encodeRaw) [] hsl
    (by rw [Decoder.rest_new, append_nil])
  rw [hread] at hread'
  exact (Outcome.ok.inj hread').1

inductive SameItems : Node → Node → Prop where
  | empty : SameItems .empty .empty
  | leaf : SameItems (.leaf key value) (.leaf key value)
  | extension : r.bytes = r'.bytes → SameItems (.extension key r) (.extension key r')
  | branch : (∀ i, childBytes (children i) = childBytes (children' i)) →
      value.getD [] = value'.getD [] →
      SameItems (.branch children value) (.branch children' value')

theorem map_finRange_inj {f g : Fin n → α}
    (h : (finRange n).map f ++ [a] = (finRange n).map g ++ [b]) : (∀ i, f i = g i) ∧ a = b := by
  obtain ⟨hmap, hlast⟩ := append_inj' h rfl
  exact ⟨fun i => map_inj_left.mp hmap i (mem_finRange i), singleton_inj.mp hlast⟩

theorem sameItems_of_items_eq (hne : n ≠ .empty) (hne' : n' ≠ .empty)
    (h : n.items = n'.items) : SameItems n n' := by
  have hlen := congrArg length h
  cases n with
  | empty => exact (hne rfl).elim
  | leaf key value =>
    cases n' with
    | empty => exact (hne' rfl).elim
    | leaf key' value' =>
      simp only [Node.items, cons.injEq, and_true] at h
      obtain ⟨hkey, rfl⟩ := h
      obtain ⟨rfl, -⟩ := Nibbles.encodeCompact_inj hkey
      exact .leaf
    | extension key' node =>
      simp only [Node.items, cons.injEq] at h
      cases (Nibbles.encodeCompact_inj h.1).2
    | branch cs value => simp [Node.items] at hlen
  | extension key node =>
    cases n' with
    | empty => exact (hne' rfl).elim
    | leaf key' value =>
      simp only [Node.items, cons.injEq] at h
      cases (Nibbles.encodeCompact_inj h.1).2
    | extension key' node' =>
      simp only [Node.items, cons.injEq, and_true] at h
      obtain ⟨rfl, -⟩ := Nibbles.encodeCompact_inj h.1
      exact .extension h.2
    | branch cs value => simp [Node.items] at hlen
  | branch cs value =>
    cases n' with
    | empty => exact (hne' rfl).elim
    | leaf key value => simp [Node.items] at hlen
    | extension key node => simp [Node.items] at hlen
    | branch cs' value' =>
      obtain ⟨hchs, hval⟩ := map_finRange_inj h
      exact .branch hchs hval

/-- Nodes with one encoding are made of the same strings. -/
theorem sameItems_of_encodeRaw_eq (h : n.encodeRaw = n'.encodeRaw)
    (hlen : n'.encodeRaw.length < 2 ^ 32) : SameItems n n' := by
  have hitem := Node.item_eq h hlen
  have hinj : Function.Injective RlpItem.string := fun _ _ h => RlpItem.string.inj h
  have hits (hl : RlpItem.list (n.items.map .string) = .list (n'.items.map .string)) :
      n.items = n'.items := hinj.list_map (RlpItem.list.inj hl)
  cases n with
  | empty =>
    cases n' with
    | empty => exact .empty
    | _ => cases hitem
  | _ =>
    cases n' with
    | empty => cases hitem
    | _ =>
      refine sameItems_of_items_eq ?_ ?_ (hits hitem)
      · intro h
        cases h
      · intro h
        cases h

theorem bytes_eq_inline {r : NodeRef} {m : Node} (h : r.bytes = m.encodeRaw)
    (hsh : m.encodeRaw.length < 32) : ∃ m', r = .inline m' ∧ m'.encodeRaw = m.encodeRaw := by
  cases r with
  | hash hash =>
    rw [NodeRef.bytes] at h
    rw [← h, hash.toList_length] at hsh
    exact (lt_irrefl 32 hsh).elim
  | inline m' => exact ⟨m', rfl, by rwa [NodeRef.bytes] at h⟩

theorem childBytes_eq_nil (h : childBytes c = []) : c = none := by
  cases c with
  | none => rfl
  | some r => exact (r.bytes_ne_nil (by rwa [childBytes] at h)).elim

theorem childBytes_eq_inline {m : Node} (h : childBytes c = m.encodeRaw)
    (hsh : m.encodeRaw.length < 32) : ∃ m', c = some (.inline m') ∧ m'.encodeRaw = m.encodeRaw := by
  cases c with
  | none =>
    exact (m.encodeRaw_ne_nil h.symm).elim
  | some r =>
    obtain ⟨m', rfl, hm'⟩ := bytes_eq_inline h hsh
    exact ⟨m', rfl, hm'⟩

theorem SameItems.inlinedIn (h : SameItems n root) (htidy : root.Tidy) {m : Node}
    (hm : m.InlinedIn root) : ∃ m' : Node, m'.InlinedIn n ∧ m'.encodeRaw = m.encodeRaw := by
  have hsh := (htidy.here m hm).2
  cases h with
  | empty => exact hm.elim
  | leaf => exact hm.elim
  | extension hbs =>
    obtain rfl := hm
    exact bytes_eq_inline hbs hsh
  | branch hchs hval =>
    obtain ⟨i, hi⟩ := hm
    have hbs := hchs i
    rw [hi] at hbs
    obtain ⟨m', hm', heq⟩ := childBytes_eq_inline hbs hsh
    exact ⟨m', ⟨i, hm'⟩, heq⟩

theorem SameItems.steps (h : SameItems n root) (htidy : root.Tidy)
    (hm : root.Steps key m key') : ∃ m', n.Steps key m' key' ∧ m'.encodeRaw = m.encodeRaw := by
  have hsh := (htidy.here m hm.inlinedIn).2
  cases hm with
  | extension hk =>
    cases h with
    | extension hbs =>
      obtain ⟨m', rfl, heq⟩ := bytes_eq_inline hbs hsh
      exact ⟨m', .extension hk, heq⟩
  | @branch _ _ nibble _ _ hch =>
    cases h with
    | branch hchs hval =>
      have hbs := hchs nibble
      rw [hch] at hbs
      obtain ⟨m', hm', heq⟩ := childBytes_eq_inline hbs hsh
      exact ⟨m', .branch hm', heq⟩

theorem SameItems.stops (h : SameItems n root) (hkept : n.ValuesKept)
    (hpl : root.Stops key place) (hins : place.Inside) : n.Stops key place.reread := by
  cases hpl with
  | empty =>
    cases h
    exact .empty
  | leaf =>
    cases h
    exact .leaf
  | otherLeaf hk =>
    cases h
    exact .otherLeaf hk
  | otherPath hk =>
    cases h
    exact .otherPath hk
  | extension hk => exact hins.elim
  | @value _ value =>
    cases h with
    | @branch _ _ value' _ hchs hval =>
      have heq : value.filter (fun v => !v.isEmpty) = value' := by
        match value', value with
        | some [], _ => exact (hkept.here _ rfl).elim
        | none, none => rfl
        | none, some v =>
          obtain rfl : [] = v := hval
          rfl
        | some (b :: v), none => cases hval
        | some (b :: v), some v' =>
          obtain rfl : b :: v = v' := hval
          rfl
      rw [Place.reread, heq]
      exact .value
  | @noChild _ _ nibble _ hch =>
    cases h with
    | branch hchs hval =>
      have hbs := hchs nibble
      rw [hch] at hbs
      exact .noChild (childBytes_eq_nil hbs)
  | branch hch => exact hins.elim

theorem find_of_encodeRaw_eq {n root : Node} {key : Nibbles} (h : n.encodeRaw = root.encodeRaw)
    (hlen : root.encodeRaw.length < 2 ^ 32) (htidy : root.Tidy) (hkept : n.ValuesKept)
    (hins : (root.find key).Inside) : n.find key = (root.find key).reread := by
  induction root, key using Node.walk_induction generalizing n with
  | stop root key place hstp =>
    rw [hstp.find] at hins ⊢
    exact ((sameItems_of_encodeRaw_eq h hlen).stops hkept hstp hins).find
  | step root key m key' hstps ih =>
    obtain ⟨m', hstps', heq⟩ := (sameItems_of_encodeRaw_eq h hlen).steps htidy hstps
    have hlt := hstps.inlinedIn.length_lt
    rw [hstps.find] at hins ⊢
    rw [hstps'.find]
    exact ih heq (by omega) (htidy.inside hstps.inlinedIn) (hkept.inside hstps'.inlinedIn) hins

theorem trimmed_of_encodeRaw_eq {n root : Node} (h : n.encodeRaw = root.encodeRaw)
    (hlen : root.encodeRaw.length < 2 ^ 32) (htidy : root.Tidy) (htrm : n.Trimmed) :
    root.Trimmed := by
  induction root using Node.inline_induction generalizing n with
  | step root ih =>
    have hsame := sameItems_of_encodeRaw_eq h hlen
    refine .intro ?_ fun m hm => ?_
    · have hpath := htrm.here
      cases hsame <;> exact hpath
    · obtain ⟨m', hm', heq⟩ := hsame.inlinedIn htidy hm
      have hlt := hm.length_lt
      exact ih m hm heq (by omega) (htidy.inside hm) (htrm.inside hm')

section
variable [Crypto]

/-- No other encoding has the hash of the node. -/
def Node.HashBinds (root : Node) : Prop :=
  ∀ n : Node, n.hash = root.hash → n.encodeRaw = root.encodeRaw

theorem Node.hash_of_long {n : Node} (h : 32 ≤ n.encodeRaw.length) :
    n.hash = keccak256 n.encodeRaw := dif_neg (not_lt.mpr h)

theorem Node.hash_of_short {n : Node} (h : n.encodeRaw.length < 32) :
    n.hash.toList = n.encodeRaw ++ replicate (32 - n.encodeRaw.length) 0 :=
  congrArg List.Vector.toList (dif_pos h)

theorem Node.hash_eq {n n' : Node} (h : n.encodeRaw = n'.encodeRaw) : n.hash = n'.hash := by
  by_cases hsh : n'.encodeRaw.length < 32
  · apply Subtype.ext
    exact (hash_of_short (by rwa [h])).trans (by rw [h, ← hash_of_short hsh]; rfl)
  · rw [hash_of_long (Nat.le_of_not_lt hsh), hash_of_long (by rw [h]; omega), h]

omit [Crypto] in
theorem exists_first_of_short {n : Node} (h : n.encodeRaw.length < 32) :
    ∃ byte tail, n.encodeRaw = byte :: tail ∧ 0x80 ≤ byte.toNat := by
  by_cases hne : n = .empty
  · subst hne
    exact ⟨0x80, [], by rw [Node.encodeRaw]; rfl, by decide⟩
  · have hlt := length_items_lt hne
    rw [Node.encodeRaw_eq hne, encodePayload, header, if_pos (by omega)]
    refine ⟨_, _, rfl, ?_⟩
    rw [UInt8.toNat_ofNat', Nat.mod_eq_of_lt (by omega)]
    omega

theorem hashBinds_of_injective {root : Node} (hlong : 32 ≤ root.encodeRaw.length) {byte : UInt8}
    (hfst : (keccak256 root.encodeRaw).toList = byte :: tail) (hbyte : byte.toNat < 0x80)
    (honly : ∀ data, keccak256 data = keccak256 root.encodeRaw → data = root.encodeRaw) :
    root.HashBinds := by
  intro n hhash
  rw [Node.hash_of_long hlong] at hhash
  by_cases hsh : n.encodeRaw.length < 32
  · obtain ⟨byte', tail', hn, hbyte'⟩ := exists_first_of_short hsh
    have hlist := Node.hash_of_short hsh
    rw [hhash, hfst, hn] at hlist
    obtain ⟨rfl, -⟩ := cons.inj hlist
    omega
  · rw [Node.hash_of_long (Nat.le_of_not_lt hsh)] at hhash
    exact honly _ hhash

end

section
open Unhashed

def forked : List Op := [.insert [0x11] [1], .insert [0x21] (List.replicate 40 7)]

def forkedBytes : Bytes := (toNode (treeAfter forked)).encodeRaw

end

namespace Forked

/-- A hash function that keeps one root apart from everything else. -/
scoped instance : Crypto :=
  ⟨fun data => if data = forkedBytes then ⟨1 :: List.replicate 31 0, rfl⟩ else H256.zero⟩

theorem encodeRaw_forked : (toNode (treeAfter forked)).encodeRaw = forkedBytes := by
  rfl

theorem hashBinds_forked : (toNode (treeAfter forked)).HashBinds := by
  have hhash : keccak256 forkedBytes = ⟨1 :: replicate 31 0, rfl⟩ := if_pos rfl
  have hfst : (keccak256 forkedBytes).toList = 1 :: replicate 31 0 := by
    rw [hhash]
    rfl
  rw [← encodeRaw_forked] at hfst
  refine hashBinds_of_injective ?_ hfst (by decide) ?_
  · rw [encodeRaw_forked]
    decide
  · intro data heq
    rw [encodeRaw_forked]
    by_contra hne
    have hzero : keccak256 data = H256.zero := if_neg hne
    rw [hzero] at heq
    exact absurd (congrArg List.Vector.toList heq) (by decide)

theorem trimmed_forked : (toNode (treeAfter forked)).Trimmed := by
  have hleaf : (Node.leaf [1] [1]).Trimmed := .intro rfl fun _ hm => hm.elim
  refine .intro rfl fun m ⟨i, hi⟩ => ?_
  fin_cases i <;> cases hi
  exact hleaf

theorem run_forked [ListHeader] : ∃ trie, (PatriciaTrie.new ∅).run loadNode 8 forked = .ok trie ∧
    Represents trie ((Model.new ∅).run forked) := by
  have hnew : (Model.new ∅).Transparent loadNode := trivial
  have hleaf : ((Model.new ∅).step (.insert [0x11] [1])).Transparent loadNode := trivial
  have hfst : Op.Within 8 (.insert [0x11] [1]) := by simp [Op.Within]
  have hsec : Op.Within 8 (.insert [0x21] (replicate 40 7)) := by simp [Op.Within]
  obtain ⟨first, hrun, hrep⟩ := (represents_new ∅).step hnew hfst
  obtain ⟨second, hrun', hrep'⟩ := hrep.step hleaf hsec
  refine ⟨second, ?_, hrep'⟩
  rw [PatriciaTrie.run, forked, foldlM_cons, hrun, Call.ok_bind, foldlM_cons, hrun']
  rfl

end Forked

end EthereumRust.Trie
