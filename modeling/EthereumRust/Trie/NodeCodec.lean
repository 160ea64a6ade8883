import EthereumRust.Rlp.Strings
import EthereumRust.Trie.Node

/-!
# Decoding an encoded node

A node that is not empty is encoded as a list of strings, and decoded from one. Two things are lost
on the way: the zero at the end of a path of even length, and an empty value in a branch. `reread`
is what is left, and nothing else changes.
-/

namespace EthereumRust.Trie

open Rust Rlp List Function

def Node.items : Node → List Bytes
  | .empty => []
  | .leaf key value => [key.encodeCompact true, value]
  | .extension key node => [key.encodeCompact false, node.bytes]
  | .branch children value =>
    (List.finRange 16).map (fun i => childBytes (children i)) ++ [value.getD []]

variable {n : Node}

theorem Node.encodeRaw_eq (h : n ≠ .empty) :
    n.encodeRaw = encodePayload (n.items.flatMap encodeBytes) := by
  cases n with
  | empty => exact (h rfl).elim
  | leaf key value => simp [encodeRaw, items]
  | extension key node => simp [encodeRaw, items]
  | branch cs value => simp [encodeRaw, items, flatMap_map]

def decodeSlot (decodeRaw : Bytes → Call TrieError Node) (data : Bytes) :
    Call TrieError (Option NodeRef) :=
  if data.isEmpty then .ok none else do return some (← decodeRef decodeRaw data)

inductive FromItems (decodeRaw : Bytes → Call TrieError Node) : List Bytes → Node → Prop where
  | leaf : Nibbles.decodeCompact keyData = .ok (key, true) →
      FromItems decodeRaw [keyData, value] (.leaf key value)
  | extension : Nibbles.decodeCompact keyData = .ok (key, false) →
      decodeRef decodeRaw data = .ok node →
      FromItems decodeRaw [keyData, data] (.extension key node)
  | branch : (∀ i, decodeSlot decodeRaw (data i) = .ok (children i)) →
      FromItems decodeRaw ((List.finRange 16).map data ++ [valueData])
        (.branch children (if valueData.isEmpty then none else some valueData))

theorem Decoding.bind_apply {f : α → Decoding β} : (m >>= f) d = (m d >>= fun p => f p.1 p.2) := rfl

variable {a : α}

theorem Decoding.pure_apply : (pure a : Decoding α) d = .ok (a, d) := rfl

theorem Decoding.lift_apply : (liftM c : Decoding α) d = (c >>= fun a => .ok (a, d)) := rfl

theorem Decoding.lift_eq_ok {c : Call TrieError α} :
    (liftM c : Decoding α) d = .ok (a, d') ↔ c = .ok a ∧ d' = d := by
  rw [Decoding.lift_apply]
  cases c with
  | ok b => simp [eq_comm]
  | error e => simp

theorem rlp_of_ok (h : m d = .ok a d') : rlp m d = .ok (a, d') := by
  rw [rlp, Call.ofMethod, h]

structure Stands (d : Decoder) (strings : List Bytes) (tail : Bytes) : Prop where
  rest : d.rest = strings.flatMap encodeBytes ++ tail
  short : ∀ s ∈ strings, s.length < 2 ^ 32
  slice : d.data.length ≤ isizeMax

variable {tail : Bytes}

theorem Stands.next (h : Stands d (s :: strings) tail) :
    ∃ d', rlp decodeBytes d = .ok (s, d') ∧ Stands d' strings tail := by
  have hrea := reads_encodeBytes (h.short s mem_cons_self)
  obtain ⟨off, hhd, hs⟩ := hrea
  have hrest : d.rest = encodeBytes s ++ (strings.flatMap encodeBytes ++ tail) := by
    rw [h.rest, flatMap_cons, append_assoc]
  refine ⟨d.advance (encodeBytes s).length,
    rlp_of_ok (decodeBytes_yields hhd hs d _ h.slice hrest), ?_, ?_, h.slice⟩
  · rw [Decoder.rest_advance, hrest, drop_left]
  · exact fun s hs => h.short s (mem_cons_of_mem _ hs)

theorem decodeChild_of (hread : rlp decodeBytes d = .ok (data, d'))
    (hslot : decodeSlot decodeRaw data = .ok slot) (hnone : cs i = none) :
    decodeChild decodeRaw cs i d = .ok (update cs i slot, d') := by
  rw [decodeChild, Decoding.bind_apply, hread, Call.ok_bind]
  unfold decodeSlot at hslot
  split at hslot
  · rename_i hemp
    cases hslot
    rw [← hnone]
    simp [hemp, Decoding.pure_apply]
  · rename_i hne
    obtain ⟨ref, href, h⟩ := hslot.of_bind
    cases h
    simp [hne, Decoding.bind_apply, Decoding.lift_apply, href, Decoding.pure_apply]

theorem foldlM_decodeChild_of {slots : Fin 16 → Option NodeRef}
    (hslo : ∀ i, decodeSlot decodeRaw (data i) = .ok (slots i)) {left : List (Fin 16)}
    (hnd : left.Nodup) (hnone : ∀ i ∈ left, cs i = none)
    (h : Stands d (left.map data ++ strings) tail) :
    ∃ d', left.foldlM (decodeChild decodeRaw) cs d =
        .ok (fun i => if i ∈ left then slots i else cs i, d') ∧ Stands d' strings tail := by
  induction left generalizing cs d with
  | nil => exact ⟨d, by simp [Decoding.pure_apply], h⟩
  | cons i left ih =>
    obtain ⟨d₁, hread, h₁⟩ := h.next
    obtain ⟨hi, hnd⟩ := nodup_cons.mp hnd
    have hch := decodeChild_of hread (hslo i) (hnone i mem_cons_self)
    have hnone' : ∀ j ∈ left, update cs i (slots i) j = none := by
      intro j hj
      rw [update_of_ne (by rintro rfl; exact hi hj)]
      exact hnone j (mem_cons_of_mem _ hj)
    obtain ⟨d₂, hloop, h₂⟩ := ih hnd hnone' h₁
    refine ⟨d₂, ?_, h₂⟩
    rw [foldlM_cons, Decoding.bind_apply, hch, Call.ok_bind, hloop]
    refine congrArg (fun cs => Except.ok (cs, d₂)) (funext fun j => ?_)
    by_cases hj : j = i
    · subst hj
      simp [hi]
    · simp [hj]

theorem decodeChild_inv (h : decodeChild decodeRaw cs i d = .ok (cs', d')) (hnone : cs i = none) :
    ∃ data slot, decodeSlot decodeRaw data = .ok slot ∧ cs' = update cs i slot := by
  rw [decodeChild, Decoding.bind_apply] at h
  obtain ⟨⟨data, d₁⟩, -, h⟩ := h.of_bind
  refine ⟨data, ?_⟩
  unfold decodeSlot
  split at h
  · rename_i hemp
    cases h
    exact ⟨none, by rw [if_pos hemp], by rw [← hnone, update_eq_self]⟩
  · rename_i hne
    obtain ⟨⟨ref, d₂⟩, hlift, h⟩ := h.of_bind
    obtain ⟨href, -⟩ := Decoding.lift_eq_ok.mp hlift
    cases h
    exact ⟨some ref, by rw [if_neg hne, href]; rfl, rfl⟩

theorem foldlM_decodeChild_inv {left : List (Fin 16)} (hnd : left.Nodup)
    (hnone : ∀ i ∈ left, cs i = none)
    (h : left.foldlM (decodeChild decodeRaw) cs d = .ok (cs', d')) :
    (∀ i ∈ left, ∃ data, decodeSlot decodeRaw data = .ok (cs' i)) ∧ ∀ i ∉ left, cs' i = cs i := by
  induction left generalizing cs d with
  | nil =>
    cases h
    exact ⟨nofun, fun _ _ => rfl⟩
  | cons i left ih =>
    obtain ⟨hi, hnd⟩ := nodup_cons.mp hnd
    obtain ⟨⟨cs₁, d₁⟩, hch, h⟩ := h.of_bind
    obtain ⟨data, slot, hslot, rfl⟩ := decodeChild_inv hch (hnone i mem_cons_self)
    have hnone' : ∀ j ∈ left, update cs i slot j = none := by
      intro j hj
      rw [update_of_ne (by rintro rfl; exact hi hj)]
      exact hnone j (mem_cons_of_mem _ hj)
    obtain ⟨hleft, hoth⟩ := ih hnd hnone' h
    refine ⟨fun j hj => ?_, fun j hj => ?_⟩
    · rcases mem_cons.mp hj with rfl | hj
      · rw [hoth j hi, update_self]
        exact ⟨data, hslot⟩
      · exact hleft j hj
    · rw [mem_cons, not_or] at hj
      rw [hoth j hj.2, update_of_ne hj.1]

variable [ListHeader]

theorem decodeRawWith_of [LawfulListHeader] (h : FromItems decodeRaw strings n)
    (hrest : d.rest = encodePayload (strings.flatMap encodeBytes) ++ tail)
    (hlen : (strings.flatMap encodeBytes).length < 2 ^ 32) (hsl : d.data.length ≤ isizeMax) :
    ∃ d', decodeRawWith decodeRaw d = .ok (n, d') := by
  have hhd := rlp_of_ok (LawfulListHeader.counts strings d tail hlen hsl hrest)
  have hsta : Stands (d.advance (header 0xc0 0xf7 (strings.flatMap encodeBytes).length).length)
      strings tail := by
    refine ⟨?_, ?_, hsl⟩
    · rw [Decoder.rest_advance, hrest, encodePayload, append_assoc, drop_left]
    · exact fun s hs => lt_of_le_of_lt (length_le_flatMap_encodeBytes hs) hlen
  rw [decodeRawWith, Decoding.bind_apply, hhd, Call.ok_bind]
  cases h with
  | leaf hkey =>
    obtain ⟨d₁, hread₁, h₁⟩ := hsta.next
    obtain ⟨d₂, hread₂, -⟩ := h₁.next
    refine ⟨d₂, ?_⟩
    rw [if_pos (by rfl), decodePath]
    simp only [Decoding.bind_apply, hread₁, Call.ok_bind, Decoding.lift_apply, hkey, if_true,
      hread₂, Decoding.pure_apply]
  | extension hkey href =>
    obtain ⟨d₁, hread₁, h₁⟩ := hsta.next
    obtain ⟨d₂, hread₂, -⟩ := h₁.next
    refine ⟨d₂, ?_⟩
    rw [if_pos (by rfl), decodePath]
    simp only [Decoding.bind_apply, hread₁, Call.ok_bind, Decoding.lift_apply, hkey,
      Bool.false_eq_true, if_false, hread₂, href, Decoding.pure_apply]
  | branch hslo =>
    obtain ⟨d₁, hloop, h₁⟩ := foldlM_decodeChild_of hslo (nodup_finRange 16) (fun _ _ => rfl) hsta
    obtain ⟨d₂, hread, -⟩ := h₁.next
    refine ⟨d₂, ?_⟩
    rw [if_neg (by simp), if_pos (by simp), decodeBranch]
    simp only [Decoding.bind_apply, hloop, mem_finRange, if_true, Call.ok_bind, hread,
      Decoding.pure_apply]

theorem decodeRawWith_inv (h : decodeRawWith decodeRaw d = .ok (n, d')) :
    ∃ strings, FromItems decodeRaw strings n := by
  rw [decodeRawWith, Decoding.bind_apply] at h
  obtain ⟨⟨listSize, d₁⟩, -, h⟩ := h.of_bind
  split_ifs at h
  · obtain ⟨⟨keyData, d₂⟩, -, h⟩ := h.of_bind
    obtain ⟨⟨⟨key, isLeaf⟩, d₃⟩, hlift, h⟩ := h.of_bind
    obtain ⟨hkey, -⟩ := Decoding.lift_eq_ok.mp hlift
    cases isLeaf with
    | true =>
      obtain ⟨⟨value, d₄⟩, -, h⟩ := h.of_bind
      cases h
      exact ⟨_, .leaf hkey⟩
    | false =>
      obtain ⟨⟨data, d₄⟩, -, h⟩ := h.of_bind
      obtain ⟨⟨node, d₅⟩, hlift, h⟩ := h.of_bind
      obtain ⟨href, -⟩ := Decoding.lift_eq_ok.mp hlift
      cases h
      exact ⟨_, .extension hkey href⟩
  · simp only [decodeBranch, Decoding.bind_apply] at h
    obtain ⟨⟨cs, d₂⟩, hloop, h⟩ := h.of_bind
    obtain ⟨⟨valueData, d₃⟩, -, h⟩ := h.of_bind
    cases h
    have hslo := (foldlM_decodeChild_inv (nodup_finRange 16) (fun _ _ => rfl) hloop).1
    choose data hdata using fun i => hslo i (mem_finRange i)
    exact ⟨_, .branch hdata⟩
  · cases h

end EthereumRust.Trie
