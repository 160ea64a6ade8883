import EthereumRust.Trie.Find
import Mathlib.Order.Lattice.Nat

/-!
# What storage loses

A node that is not read back as it was stored has lost an entry: there is a key whose value is not
found any more. The longest key below an extension is the one that moves out of the way.
-/

namespace EthereumRust.Trie

open Rust List

inductive Node.Holds : Node → Nibbles → Bytes → Prop where
  | leaf : Node.Holds (.leaf key value) key value
  | value : Node.Holds (.branch children (some value)) [] value
  | extension : m.Holds key value → Node.Holds (.extension extKey (.inline m)) (extKey ++ key) value
  | branch (nibble : Nibble) : children nibble = some (.inline m) → m.Holds key value →
      Node.Holds (.branch children own) (nibble :: key) value

theorem Node.Holds.find {n : Node} {value : Bytes} (h : n.Holds key value) :
    (n.find key).Inside ∧ (n.find key).value = some value := by
  induction h with
  | leaf =>
    rw [Node.Stops.leaf.find]
    exact ⟨trivial, rfl⟩
  | value =>
    exact ⟨trivial, rfl⟩
  | extension _ ih =>
    rw [Node.find_extension, if_pos (prefix_append ..), drop_left]
    exact ih
  | branch nibble hch _ ih =>
    rw [(Node.Steps.branch hch).find]
    exact ih

theorem Node.holds_of_find {n : Node}
    (h : (n.find key).value = some value) : n.Holds key value := by
  induction n, key using Node.walk_induction with
  | stop n key place hstp =>
    rw [hstp.find] at h
    cases hstp with
    | leaf =>
      obtain rfl := Option.some.inj h
      exact .leaf
    | value =>
      obtain rfl := h
      exact .value
    | _ => cases h
  | step n key m key' hstps ih =>
    rw [hstps.find] at h
    cases hstps with
    | extension hk =>
      obtain ⟨rest, rfl⟩ := hk
      rw [drop_left] at ih h
      exact .extension (ih h)
    | branch hch => exact .branch _ hch (ih h)

theorem Node.Holds.of_leaf {own value : Bytes}
    (h : (Node.leaf leafKey own).Holds key value) : key = leafKey := by
  cases h
  rfl

theorem Node.Holds.of_extension {value : Bytes}
    (h : (Node.extension extKey (.inline m)).Holds (extKey ++ key) value) : m.Holds key value := by
  have hfind := h.find.2
  rw [Node.find_extension, if_pos (prefix_append ..), drop_left] at hfind
  exact Node.holds_of_find hfind

theorem Node.Holds.of_branch {value : Bytes}
    (h : (Node.branch cs own).Holds (nibble :: key) value) :
    ∃ m : Node, cs nibble = some (.inline m) ∧ m.Holds key value := by
  cases h with
  | branch _ hch hm => exact ⟨_, hch, hm⟩

theorem Node.Holds.of_reread {n : Node} {value : Bytes}
    (h : n.reread.Holds key value) : ∃ key', n.Holds key' value ∧ key.length ≤ key'.length := by
  induction n using Node.inline_induction generalizing key with
  | step n ih =>
    cases n with
    | empty =>
      cases h
    | leaf leafKey own =>
      cases h
      exact ⟨leafKey, .leaf, Nibbles.length_trim_le leafKey⟩
    | extension extKey childRef =>
      cases childRef with
      | hash hash =>
        cases h
      | inline m =>
        cases h with
        | extension hm =>
          obtain ⟨key', hkey', hle⟩ := ih m rfl hm
          refine ⟨extKey ++ key', .extension hkey', ?_⟩
          rw [length_append, length_append]
          exact Nat.add_le_add (Nibbles.length_trim_le extKey) hle
    | branch cs own =>
      rw [Node.reread] at h
      generalize hown : own.filter (fun v => !v.isEmpty) = own' at h
      cases h with
      | value =>
        obtain ⟨rfl, -⟩ := Option.filter_eq_some_iff.mp hown
        exact ⟨[], .value, le_refl _⟩
      | branch nibble hch hm =>
        obtain ⟨m', hm', rfl⟩ := rereadChild_eq_inline hch
        obtain ⟨key', hkey', hle⟩ := ih m' ⟨nibble, hm'⟩ hm
        exact ⟨nibble :: key', .branch nibble hm' hkey', Nat.succ_le_succ hle⟩

theorem Node.exists_length_le (n : Node) :
    ∃ bound, ∀ key value, n.Holds key value → key.length ≤ bound := by
  induction n using Node.inline_induction with
  | step n ih =>
    choose! bound hbd using ih
    cases n with
    | empty => exact ⟨0, nofun⟩
    | leaf leafKey own =>
      refine ⟨leafKey.length, fun key value h => ?_⟩
      cases h
      exact le_refl _
    | extension extKey childRef =>
      cases childRef with
      | hash hash => exact ⟨0, nofun⟩
      | inline m =>
        refine ⟨extKey.length + bound m, fun key value h => ?_⟩
        cases h with
        | extension hm =>
          rw [length_append]
          exact Nat.add_le_add_left (hbd m rfl _ _ hm) _
    | branch cs own =>
      have hsup (i : Fin 16) : ∃ b, ∀ m, cs i = some (.inline m) → bound m ≤ b := by
        cases hch : cs i with
        | none => exact ⟨0, nofun⟩
        | some childRef =>
          cases childRef with
          | hash hash => exact ⟨0, nofun⟩
          | inline m =>
            refine ⟨bound m, fun m' hm' => ?_⟩
            cases hm'
            exact le_refl _
      choose b hb using hsup
      refine ⟨Finset.univ.sup b + 1, fun key value h => ?_⟩
      cases h with
      | value => exact Nat.zero_le _
      | branch nibble hch hm =>
        have h₁ := hbd _ ⟨nibble, hch⟩ _ _ hm
        have h₂ := hb nibble _ hch
        have h₃ : b nibble ≤ Finset.univ.sup b := Finset.le_sup (Finset.mem_univ nibble)
        rw [length_cons]
        omega

theorem Node.exists_longest {n : Node} (h : n.Holds key value) :
    ∃ key value, n.Holds key value ∧
      ∀ key' value', n.Holds key' value' → key'.length ≤ key.length := by
  let lengths := {l | ∃ key value, n.Holds key value ∧ key.length = l}
  obtain ⟨bound, hbd⟩ := n.exists_length_le
  have hbdd : BddAbove lengths := by
    refine ⟨bound, ?_⟩
    rintro _ ⟨key, value, h, rfl⟩
    exact hbd key value h
  have hmem : sSup lengths ∈ lengths := Nat.sSup_mem ⟨_, key, value, h, rfl⟩ hbdd
  obtain ⟨key, value, h, hlen⟩ := hmem
  refine ⟨key, value, h, fun key' value' h' => ?_⟩
  rw [hlen]
  exact le_csSup hbdd ⟨key', value', h', rfl⟩

def Node.Clean (n : Node) : Prop := n.Trimmed ∧ n.ValuesKept

theorem Node.not_clean (h : ¬n.Clean) :
    n.path.trim ≠ n.path ∨ (∃ cs, n = .branch cs (some [])) ∨
      ∃ m : Node, m.InlinedIn n ∧ ¬m.Clean := by
  by_contra hnot
  simp only [not_or, not_not, not_exists, not_and] at hnot
  obtain ⟨hpath, hval, hins⟩ := hnot
  exact h ⟨.intro hpath fun m hm => (hins m hm).1, .intro hval fun m hm => (hins m hm).2⟩

def Node.Peopled (n : Node) : Prop :=
  n.All fun n => ∀ extKey m, n = .extension extKey (.inline m) → ∃ key value, m.Holds key value

def Node.HashPathsKept (n : Node) : Prop :=
  n.All fun n => ∀ extKey hash, n = .extension extKey (.hash hash) → extKey.trim = extKey

theorem exists_lost_of_path {extKey : Nibbles} (htrim : extKey.trim ≠ extKey)
    (hent : m.Holds key value) :
    ∃ key value, (Node.extension extKey (.inline m)).Holds key value ∧
      ¬(Node.extension extKey (.inline m)).reread.Holds key value := by
  obtain ⟨key, value, h, hlon⟩ := Node.exists_longest hent
  refine ⟨extKey ++ key, value, .extension h, fun hrr => ?_⟩
  have hkey : extKey ++ key = extKey.trim ++ 0 :: key := by
    conv_lhs => rw [(Nibbles.eq_of_trim_ne htrim).2]
    rw [append_assoc]
    rfl
  rw [hkey] at hrr
  obtain ⟨key', hkey', hle⟩ := hrr.of_extension.of_reread
  have hle' := hlon key' value hkey'
  rw [length_cons] at hle
  omega

/-- A node that storage changes holds a value that it does not hold after it. -/
theorem Node.exists_lost {n : Node} (hpeo : n.Peopled) (hhash : n.HashPathsKept) (h : ¬n.Clean) :
    ∃ key value, n.Holds key value ∧ ¬n.reread.Holds key value := by
  induction n using Node.inline_induction with
  | step n ih =>
    rcases Node.not_clean h with hpath | ⟨cs, rfl⟩ | ⟨m, hm, hcle⟩
    · cases n with
      | empty => exact (hpath rfl).elim
      | leaf leafKey value =>
        refine ⟨leafKey, value, .leaf, fun hrr => hpath ?_⟩
        exact hrr.of_leaf.symm
      | extension extKey childRef =>
        cases childRef with
        | hash hash => exact (hpath (hhash.here extKey hash rfl)).elim
        | inline m =>
          obtain ⟨key, value, hent⟩ := hpeo.here extKey m rfl
          exact exists_lost_of_path hpath hent
      | branch cs value => exact (hpath rfl).elim
    · refine ⟨[], [], .value, fun hrr => ?_⟩
      cases hrr
    · obtain ⟨key, value, hheld, hlost⟩ := ih m hm (hpeo.inside hm) (hhash.inside hm) hcle
      cases n with
      | empty => exact hm.elim
      | leaf leafKey value => exact hm.elim
      | extension extKey childRef =>
        obtain rfl := hm
        by_cases htrim : extKey.trim = extKey
        · refine ⟨extKey ++ key, value, .extension hheld, fun hrr => hlost ?_⟩
          rw [Node.reread, htrim] at hrr
          exact hrr.of_extension
        · exact exists_lost_of_path htrim hheld
      | branch cs value =>
        obtain ⟨i, hi⟩ := hm
        refine ⟨i :: key, _, .branch i hi hheld, fun hrr => hlost ?_⟩
        rw [Node.reread] at hrr
        obtain ⟨m', hch, hheld'⟩ := hrr.of_branch
        obtain ⟨m', hm', rfl⟩ := rereadChild_eq_inline hch
        rw [hi] at hm'
        cases hm'
        exact hheld'

end EthereumRust.Trie
