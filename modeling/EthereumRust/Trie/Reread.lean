import EthereumRust.Trie.NodeCodec

/-!
# Nodes that survive storage

`reread` is the node that `decode_raw` returns for an encoding: paths of even length lose a zero at
their end, and an empty value of a branch is gone. A node that `decode_raw` returns has no such path
or value in it.
-/

namespace EthereumRust.Trie

open Rust Rlp List

def Node.InlinedIn (m : Node) : Node → Prop
  | .empty => False
  | .leaf _ _ => False
  | .extension _ node => node = .inline m
  | .branch children _ => ∃ i, children i = some (.inline m)

def Node.Refers (r : NodeRef) : Node → Prop
  | .empty => False
  | .leaf _ _ => False
  | .extension _ node => node = r
  | .branch children _ => ∃ i, children i = some r

theorem Node.InlinedIn.refers {m n : Node} (h : m.InlinedIn n) : n.Refers (.inline m) := by
  cases n with
  | empty => exact h
  | leaf key value => exact h
  | extension key node => exact h
  | branch cs value => exact h

theorem Node.inline_induction {motive : Node → Prop}
    (step : ∀ n, (∀ m, m.InlinedIn n → motive m) → motive n) (n : Node) : motive n := by
  refine @Node.rec motive (fun r => ∀ m, r = .inline m → motive m)
    (fun c => ∀ m, c = some (.inline m) → motive m) ?_ ?_ ?_ ?_ ?_ ?_ ?_ ?_ n
  · exact step _ fun _ h => h.elim
  · exact fun _ _ => step _ fun _ h => h.elim
  · exact fun _ _ ih => step _ ih
  · exact fun _ _ ih => step _ fun m ⟨i, h⟩ => ih i m h
  · exact fun _ _ h => nomatch h
  · intro n ih m h
    cases h
    exact ih
  · exact fun _ h => nomatch h
  · intro r ih m h
    cases h
    exact ih m rfl

inductive Node.All (P : Node → Prop) : Node → Prop where
  | intro : P n → (∀ m : Node, m.InlinedIn n → m.All P) → Node.All P n

theorem Node.All.here {P : Node → Prop} : n.All P → P n
  | .intro h _ => h

theorem Node.All.inside {n m : Node} : n.All P → m.InlinedIn n → m.All P
  | .intro _ h => h m

def Node.path : Node → Nibbles
  | .leaf key _ => key
  | .extension key _ => key
  | _ => []

/-- No path ends in a nibble that decoding drops. -/
def Node.Trimmed (n : Node) : Prop := n.All fun m => m.path.trim = m.path

/-- No branch has an empty value, which decoding drops. -/
def Node.ValuesKept (n : Node) : Prop := n.All fun m => ∀ children, m ≠ .branch children (some [])

/-- Inlined nodes are not empty, and short, as `NodeRef::from_node` has them. -/
def Node.Tidy (n : Node) : Prop :=
  n.All fun n => ∀ m : Node, m.InlinedIn n → m ≠ .empty ∧ m.encodeRaw.length < 32

mutual

/-- The node as it comes back from storage. -/
def Node.reread : Node → Node
  | .empty => .empty
  | .leaf key value => .leaf key.trim value
  | .extension key node => .extension key.trim node.reread
  | .branch children value =>
    .branch (fun i => rereadChild (children i)) (value.filter fun v => !v.isEmpty)

def NodeRef.reread : NodeRef → NodeRef
  | .hash hash => .hash hash
  | .inline node => .inline node.reread

def rereadChild : Option NodeRef → Option NodeRef
  | none => none
  | some child => some child.reread

end

theorem length_items_lt {n : Node} (hne : n ≠ .empty) :
    (n.items.flatMap encodeBytes).length < n.encodeRaw.length := by
  rw [Node.encodeRaw_eq hne, encodePayload, length_append]
  have := length_header_pos 0xc0 0xf7 (n.items.flatMap encodeBytes).length
  omega

theorem Node.encodeRaw_ne_nil (n : Node) : n.encodeRaw ≠ [] := by
  rw [← length_pos_iff]
  by_cases hne : n = .empty
  · subst hne
    exact Nat.succ_pos 0
  · exact lt_of_le_of_lt (Nat.zero_le _) (length_items_lt hne)

theorem Node.ne_empty_of_long {n : Node} (h : 32 ≤ n.encodeRaw.length) : n ≠ .empty := by
  rintro rfl
  exact absurd h (by decide)

theorem Node.Refers.mem_items {n : Node} (h : n.Refers r) : r.bytes ∈ n.items := by
  cases n with
  | empty => exact h.elim
  | leaf key value => exact h.elim
  | extension key node =>
    obtain rfl := h
    simp [Node.items]
  | branch cs value =>
    obtain ⟨i, hi⟩ := h
    apply mem_append_left
    apply mem_map.mpr
    exact ⟨i, mem_finRange i, by rw [hi, childBytes]⟩

theorem Node.Refers.length_lt {n : Node} (h : n.Refers r) :
    r.bytes.length < n.encodeRaw.length := by
  have hne : n ≠ .empty := by
    rintro rfl
    exact h
  exact lt_of_le_of_lt (length_le_flatMap_encodeBytes h.mem_items) (length_items_lt hne)

theorem Node.InlinedIn.length_lt {m n : Node} (h : m.InlinedIn n) :
    m.encodeRaw.length < n.encodeRaw.length := by
  have hlt := h.refers.length_lt
  rwa [NodeRef.bytes] at hlt

theorem Node.all_of_short (hP : ∀ m : Node, m.encodeRaw.length < 32 → P m)
    {n : Node} (h : n.encodeRaw.length < 32) : n.All P := by
  induction n using Node.inline_induction with
  | step n ih => exact .intro (hP n h) fun m hm => ih m hm (lt_trans hm.length_lt h)

theorem decodeRef_bytes {r : NodeRef}
    (h : ∀ m, r = .inline m → m.encodeRaw.length ≠ 32 ∧ decodeRaw m.encodeRaw = .ok m.reread) :
    decodeRef decodeRaw r.bytes = .ok r.reread := by
  cases r with
  | hash hash =>
    rw [NodeRef.bytes, decodeRef, dif_pos hash.toList_length]
    rfl
  | inline m =>
    obtain ⟨hlen, hdec⟩ := h m rfl
    rw [NodeRef.bytes, decodeRef, dif_neg hlen, hdec]
    rfl

theorem NodeRef.bytes_ne_nil (r : NodeRef) : r.bytes ≠ [] := by
  cases r with
  | hash hash =>
    rw [NodeRef.bytes, ← length_pos_iff, hash.toList_length]
    decide
  | inline m =>
    exact m.encodeRaw_ne_nil

theorem decodeSlot_childBytes (h : ∀ m, c = some (.inline m) →
      m.encodeRaw.length ≠ 32 ∧ decodeRaw m.encodeRaw = .ok m.reread) :
    decodeSlot decodeRaw (childBytes c) = .ok (rereadChild c) := by
  cases c with
  | none =>
    rfl
  | some r =>
    have hne : ¬r.bytes.isEmpty = true := by
      rw [List.isEmpty_iff]
      exact r.bytes_ne_nil
    have href := decodeRef_bytes (r := r) fun m hm => h m (by rw [hm])
    rw [childBytes, decodeSlot, if_neg hne, href]
    rfl

theorem fromItems_reread (hne : n ≠ .empty) (h : ∀ m : Node, m.InlinedIn n →
      m.encodeRaw.length ≠ 32 ∧ decodeRaw m.encodeRaw = .ok m.reread) :
    FromItems decodeRaw n.items n.reread := by
  cases n with
  | empty => exact (hne rfl).elim
  | leaf key value =>
    exact .leaf (Nibbles.decodeCompact_encodeCompact key)
  | extension key node =>
    exact .extension (Nibbles.decodeCompact_encodeCompact key) (decodeRef_bytes h)
  | branch cs value =>
    have hval : value.filter (fun v => !v.isEmpty) =
        if (value.getD []).isEmpty then none else some (value.getD []) := by
      cases value with
      | none => rfl
      | some v => cases v <;> rfl
    rw [Node.reread, hval]
    exact .branch fun i => decodeSlot_childBytes fun m hm => h m ⟨i, hm⟩

theorem pow_le_isizeMax : 2 ^ 32 ≤ isizeMax := by decide

theorem decodeRawF_encodeRaw [ListHeader] [LawfulListHeader] {n : Node}
    (hne : n ≠ .empty) (htidy : n.Tidy) (hlen : n.encodeRaw.length < 2 ^ 32)
    (hfrs : n.encodeRaw.length ≤ frames) : decodeRawF frames n.encodeRaw = .ok n.reread := by
  induction frames generalizing n with
  | zero => exact (n.encodeRaw_ne_nil (length_eq_zero_iff.mp (Nat.le_zero.mp hfrs))).elim
  | succ frames ih =>
    have hits : FromItems (decodeRawF frames) n.items n.reread := by
      refine fromItems_reread hne fun m hm => ?_
      obtain ⟨hm_ne, hm_s⟩ := htidy.here m hm
      have hm_lt := hm.length_lt
      exact ⟨ne_of_lt hm_s, ih hm_ne (htidy.inside hm) (by omega) (by omega)⟩
    have hrest : (Decoder.new n.encodeRaw).rest =
        encodePayload (n.items.flatMap encodeBytes) ++ [] := by
      rw [Decoder.rest_new, append_nil, Node.encodeRaw_eq hne]
    have hpay := length_items_lt hne
    obtain ⟨d, hd⟩ := decodeRawWith_of hits hrest (by omega)
      (le_trans (le_of_lt hlen) pow_le_isizeMax)
    rw [decodeRawF, if_neg (by rw [List.isEmpty_iff]; exact n.encodeRaw_ne_nil), StateT.run']
    rw [hd]
    rfl

theorem Node.decodeRaw_encodeRaw [ListHeader] [LawfulListHeader] {n : Node} (hne : n ≠ .empty)
    (htidy : n.Tidy) (hlen : n.encodeRaw.length < 2 ^ 32) :
    Node.decodeRaw n.encodeRaw = .ok n.reread :=
  decodeRawF_encodeRaw hne htidy hlen (le_refl _)

/-- A trimmed node has the same encoding after storage. -/
theorem Node.encodeRaw_reread {n : Node} (h : n.Trimmed) : n.reread.encodeRaw = n.encodeRaw := by
  induction n using Node.inline_induction with
  | step n ih =>
    have hbs {r : NodeRef} (hr : ∀ m, r = .inline m → m.InlinedIn n) :
        r.reread.bytes = r.bytes := by
      cases r with
      | hash hash => rw [NodeRef.reread]
      | inline m =>
        rw [NodeRef.reread, NodeRef.bytes, NodeRef.bytes, ih m (hr m rfl) (h.inside (hr m rfl))]
    have hpath := h.here
    cases n with
    | empty => rw [Node.reread]
    | leaf key value => rw [Node.reread, show key.trim = key from hpath]
    | extension key node =>
      rw [Node.reread, Node.encodeRaw, Node.encodeRaw, show key.trim = key from hpath,
        hbs fun m hm => hm]
    | branch cs value =>
      have hval : (value.filter fun v => !v.isEmpty).getD [] = value.getD [] := by
        cases value with
        | none => rfl
        | some v => cases v <;> rfl
      have hch (i : Fin 16) : childBytes (rereadChild (cs i)) = childBytes (cs i) := by
        cases hi : cs i with
        | none => rw [rereadChild]
        | some r =>
          rw [rereadChild, childBytes, childBytes, hbs fun m hm => ⟨i, by rw [hi, hm]⟩]
      rw [Node.reread, Node.encodeRaw, Node.encodeRaw, hval]
      simp only [hch]

theorem Node.reread_eq_self {n : Node} (h : n.Trimmed) (hv : n.ValuesKept) : n.reread = n := by
  induction n using Node.inline_induction with
  | step n ih =>
    have href {r : NodeRef} (hr : ∀ m, r = .inline m → m.InlinedIn n) : r.reread = r := by
      cases r with
      | hash hash => rw [NodeRef.reread]
      | inline m =>
        rw [NodeRef.reread, ih m (hr m rfl) (h.inside (hr m rfl)) (hv.inside (hr m rfl))]
    have hpath := h.here
    cases n with
    | empty => rw [Node.reread]
    | leaf key value => rw [Node.reread, show key.trim = key from hpath]
    | extension key node =>
      rw [Node.reread, show key.trim = key from hpath, href fun m hm => hm]
    | branch cs value =>
      have hval : value.filter (fun v => !v.isEmpty) = value := by
        cases value with
        | none => rfl
        | some v =>
          cases v with
          | nil => exact (hv.here cs rfl).elim
          | cons b v => rfl
      have hch (i : Fin 16) : rereadChild (cs i) = cs i := by
        cases hi : cs i with
        | none => rw [rereadChild]
        | some r => rw [rereadChild, href fun m hm => ⟨i, by rw [hi, hm]⟩]
      rw [Node.reread, hval]
      simp only [hch]

theorem decodeRef_inline
    (h : decodeRef decodeRaw data = .ok (.inline m)) : decodeRaw data = .ok m := by
  unfold decodeRef at h
  split at h
  · cases h
  · obtain ⟨m', hm, heq⟩ := h.of_bind
    cases heq
    exact hm

theorem decodeSlot_inline
    (h : decodeSlot decodeRaw data = .ok (some (.inline m))) : decodeRaw data = .ok m := by
  unfold decodeSlot at h
  split at h
  · cases h
  · obtain ⟨r, hr, heq⟩ := h.of_bind
    cases heq
    exact decodeRef_inline hr

theorem FromItems.kept (h : FromItems decodeRaw strings n) :
    n.path.trim = n.path ∧ (∀ cs, n ≠ .branch cs (some [])) ∧
      ∀ m : Node, m.InlinedIn n → ∃ data, decodeRaw data = .ok m := by
  cases h with
  | leaf hkey => exact ⟨Nibbles.trim_of_decodeCompact hkey, nofun, fun _ hm => hm.elim⟩
  | extension hkey href =>
    refine ⟨Nibbles.trim_of_decodeCompact hkey, nofun, fun m hm => ?_⟩
    obtain rfl := hm
    exact ⟨_, decodeRef_inline href⟩
  | @branch data cs valueData hslo =>
    refine ⟨rfl, fun cs' heq => ?_, fun m hm => ?_⟩
    · have hval := (Node.branch.inj heq).2
      cases valueData <;> simp at hval
    · obtain ⟨i, hi⟩ := hm
      have hslot := hslo i
      rw [hi] at hslot
      exact ⟨_, decodeSlot_inline hslot⟩

theorem kept_of_decodeRawF [ListHeader] {frames : Nat} {data : Bytes} {n : Node}
    (h : decodeRawF frames data = .ok n) : n.Trimmed ∧ n.ValuesKept := by
  have hemp : Node.empty.Trimmed ∧ Node.empty.ValuesKept :=
    ⟨.intro rfl fun _ hm => hm.elim, .intro nofun fun _ hm => hm.elim⟩
  induction frames generalizing data n with
  | zero =>
    rw [decodeRawF] at h
    split at h
    · cases h
      exact hemp
    · cases h
  | succ frames ih =>
    rw [decodeRawF] at h
    split at h
    · cases h
      exact hemp
    · change Prod.fst <$> decodeRawWith (decodeRawF frames) (.new data) = _ at h
      cases hrun : decodeRawWith (decodeRawF frames) (.new data) with
      | error e =>
        rw [hrun] at h
        cases h
      | ok res =>
        rw [hrun] at h
        cases h
        obtain ⟨strings, hits⟩ := decodeRawWith_inv hrun
        obtain ⟨hpath, hval, hchs⟩ := hits.kept
        refine ⟨.intro hpath fun m hm => ?_, .intro hval fun m hm => ?_⟩
        · obtain ⟨childData, hch⟩ := hchs m hm
          exact (ih hch).1
        · obtain ⟨childData, hch⟩ := hchs m hm
          exact (ih hch).2

end EthereumRust.Trie
