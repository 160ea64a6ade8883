import Mathlib.Data.List.Infix
import Mathlib.Data.List.Nodup
import Mathlib.Data.List.OfFn

/-!
# Radix trees

Finite maps from words over `Fin n`, as trees with compressed paths: a branch holds a value and a
child for each letter, an extension a path to a branch, a leaf the rest of one word. `insert` and
`delete` keep the tree canonical, and a canonical tree is determined by its lookups.
-/

namespace Radix

open List Function

section
variable {α : Type} [DecidableEq α]

def commonLength : List α → List α → Nat
  | a :: as, b :: bs => if a = b then commonLength as bs + 1 else 0
  | _, _ => 0

theorem commonLength_le_left (as : List α) : commonLength as bs ≤ as.length := by
  fun_induction commonLength as bs with
  | case1 a as bs ih => exact Nat.succ_le_succ ih
  | case2 => exact Nat.zero_le _
  | case3 => exact Nat.zero_le _

theorem take_commonLength (bs : List α) :
    as.take (commonLength as bs) = bs.take (commonLength as bs) := by
  fun_induction commonLength as bs with
  | case1 a as bs ih => rw [take_succ_cons, take_succ_cons, ih]
  | case2 => rfl
  | case3 => rfl

variable {as bs : List α}

theorem commonLength_eq_length : commonLength as bs = as.length ↔ as <+: bs := by
  fun_induction commonLength as bs with
  | case1 a as bs ih => simp [cons_prefix_cons, ih]
  | case2 a as b bs h => simp [cons_prefix_cons, h]
  | case3 as bs h =>
    cases as with
    | nil => simp
    | cons a as =>
      cases bs with
      | nil => simp
      | cons b bs => exact (h a as b bs rfl rfl).elim

theorem drop_commonLength_ne_nil (h : ¬as <+: bs) : as.drop (commonLength as bs) ≠ [] := by
  intro hnil
  apply h
  apply commonLength_eq_length.mp
  exact le_antisymm (commonLength_le_left as) (drop_eq_nil_iff.mp hnil)

theorem drop_commonLength_ne (ha : as.drop (commonLength as bs) = a :: as') :
    bs.drop (commonLength as bs) ≠ a :: bs' := by
  fun_induction commonLength as bs with
  | case1 c as bs ih => exact ih ha
  | case2 c as b bs h =>
    intro hb
    rw [drop_zero, cons.injEq] at ha hb
    exact h (ha.1.trans hb.1.symm)
  | case3 as bs h =>
    intro hb
    exact h _ _ _ _ ha hb

theorem head?_drop_commonLength_ne (h : as ≠ bs) :
    (as.drop (commonLength as bs)).head? ≠ (bs.drop (commonLength as bs)).head? := by
  intro heq
  cases ha : as.drop (commonLength as bs) with
  | nil =>
    rw [ha, head?_nil, eq_comm, head?_eq_none_iff] at heq
    apply h
    calc as = as.take (commonLength as bs) ++ as.drop (commonLength as bs) := by simp
      _ = bs.take (commonLength as bs) ++ bs.drop (commonLength as bs) := by
        rw [take_commonLength, ha, heq]
      _ = bs := by simp
  | cons a as' =>
    rw [ha, eq_comm] at heq
    obtain ⟨bs', hb⟩ := head?_eq_some_iff.mp heq
    exact drop_commonLength_ne ha hb

omit [DecidableEq α] in
theorem prefix_of_diverging (hne : as.head? ≠ bs.head?) (ha : k <+: p ++ as)
    (hb : k <+: p ++ bs) : k <+: p := by
  rcases prefix_or_prefix_of_prefix ha (prefix_append p as) with h | ⟨r, rfl⟩
  · exact h
  · cases r with
    | nil => simp
    | cons c r =>
      have hr : c :: r <+: as := (prefix_append_right_inj p).mp ha
      have hs : c :: r <+: bs := (prefix_append_right_inj p).mp hb
      obtain ⟨as', rfl⟩ := hr
      obtain ⟨bs', rfl⟩ := hs
      exact (hne rfl).elim

end

inductive Tree (n : Nat) (V : Type) where
  | empty
  | leaf (key : List (Fin n)) (value : V)
  | ext (key : List (Fin n)) (child : Tree n V)
  | branch (children : Fin n → Tree n V) (value : Option V)

namespace Tree

variable {n : Nat} {V : Type}

def isEmpty : Tree n V → Bool
  | empty => true
  | _ => false

def isBranch : Tree n V → Bool
  | branch _ _ => true
  | _ => false

def get : Tree n V → List (Fin n) → Option V
  | empty, _ => none
  | leaf k v, key => if key = k then some v else none
  | ext k c, key => if k <+: key then c.get (key.drop k.length) else none
  | branch _ v, [] => v
  | branch cs _, i :: key => (cs i).get key

def extend (k : List (Fin n)) (t : Tree n V) : Tree n V :=
  if k = [] then t else ext k t

/-- The path `k` in front of `t`, in one node where `t` starts with a path of its own. -/
def join (k : List (Fin n)) : Tree n V → Tree n V
  | empty => empty
  | leaf k' v => leaf (k ++ k') v
  | ext k' c => ext (k ++ k') c
  | branch cs v => ext k (branch cs v)

abbrev Fan (n : Nat) (V : Type) := (Fin n → Tree n V) × Option V

def Fan.nil : Fan n V := (fun _ => empty, none)

def Fan.tree (fan : Fan n V) : Tree n V := branch fan.1 fan.2

def Fan.place (fan : Fan n V) (rest : List (Fin n)) (v : V) : Fan n V :=
  match rest with
  | [] => (fan.1, some v)
  | i :: rest => (Function.update fan.1 i (leaf rest v), fan.2)

def Fan.hang (fan : Fan n V) (rest : List (Fin n)) (t : Tree n V) : Fan n V :=
  match rest with
  | [] => fan
  | i :: rest => (Function.update fan.1 i (extend rest t), fan.2)

def insert : Tree n V → List (Fin n) → V → Tree n V
  | empty, key, v => leaf key v
  | leaf k w, key, v =>
    if k = key then leaf k v
    else
      let c := commonLength k key
      extend (k.take c) ((Fan.nil.place (k.drop c) w).place (key.drop c) v).tree
  | ext k t, key, v =>
    if k <+: key then ext k (t.insert (key.drop k.length) v)
    else
      let c := commonLength k key
      extend (k.take c) ((Fan.nil.hang (k.drop c) t).place (key.drop c) v).tree
  | branch cs _, [], v => branch cs (some v)
  | branch cs w, i :: key, v => branch (Function.update cs i ((cs i).insert key v)) w

def occupied (cs : Fin n → Tree n V) : List (Fin n) :=
  (List.finRange n).filter fun i => !(cs i).isEmpty

def compact (cs : Fin n → Tree n V) (v : Option V) : Tree n V :=
  match occupied cs, v with
  | [], none => empty
  | [], some v => leaf [] v
  | [i], none => join [i] (cs i)
  | _, _ => branch cs v

def delete : Tree n V → List (Fin n) → Tree n V × Bool
  | empty, _ => (empty, false)
  | leaf k v, key => if key = k then (empty, true) else (leaf k v, false)
  | ext k t, key =>
    if k <+: key then
      let r := t.delete (key.drop k.length)
      if r.2 then (join k r.1, true) else (ext k t, false)
    else (ext k t, false)
  | branch cs v, [] => if v.isSome then (compact cs none, true) else (branch cs v, false)
  | branch cs v, i :: key =>
    let r := (cs i).delete key
    if r.2 then (compact (Function.update cs i r.1) v, true) else (branch cs v, false)

section
variable (key : List (Fin n))

@[simp] theorem get_empty : (empty : Tree n V).get key = none := rfl

@[simp] theorem get_leaf (v : V) : (leaf k v).get key = if key = k then some v else none := rfl

@[simp] theorem get_ext :
    (ext k t).get key = if k <+: key then t.get (key.drop k.length) else none := rfl

@[simp] theorem get_branch_nil :
    (branch cs v).get [] = v := rfl

@[simp] theorem get_branch_cons :
    (branch cs v).get (i :: key) = (cs i).get key := rfl

end

variable {t : Tree n V}

theorem eq_empty_of_isEmpty (h : t.isEmpty = true) : t = empty := by
  cases t with
  | empty => rfl
  | _ => cases h

theorem get_extend :
    (extend k t).get key = if k <+: key then t.get (key.drop k.length) else none := by
  unfold extend
  split
  · subst k
    simp
  · rfl

variable {key : List (Fin n)}

theorem append_eq_iff : key = k ++ k' ↔ k <+: key ∧ key.drop k.length = k' := by
  constructor
  · rintro rfl
    simp
  · rintro ⟨⟨r, rfl⟩, h⟩
    simpa using h

theorem append_prefix_iff : k ++ k' <+: key ↔ k <+: key ∧ k' <+: key.drop k.length := by
  constructor
  · rintro ⟨r, rfl⟩
    simp
  · rintro ⟨⟨r, rfl⟩, h⟩
    simpa using h

theorem get_join : (join k t).get key = if k <+: key then t.get (key.drop k.length) else none := by
  cases t with
  | empty => simp [join]
  | leaf k' v =>
    simp only [join, get_leaf, append_eq_iff]
    by_cases h : k <+: key <;> simp [h]
  | ext k' c =>
    simp only [join, get_ext, append_prefix_iff]
    by_cases h : k <+: key <;> simp [h]
  | branch cs v => rfl

theorem mem_occupied {cs : Fin n → Tree n V} : i ∈ occupied cs ↔ cs i ≠ empty := by
  rw [occupied, mem_filter]
  simp only [mem_finRange, true_and]
  constructor
  · intro h h'
    rw [h'] at h
    cases h
  · intro h
    cases ht : (cs i).isEmpty with
    | false => rfl
    | true => exact (h (eq_empty_of_isEmpty ht)).elim

theorem get_compact (v : Option V) : (compact cs v).get key = (branch cs v).get key := by
  have hoth {i : Fin n} (h : i ∉ occupied cs) : cs i = empty := not_not.mp (mt mem_occupied.mpr h)
  unfold compact
  split
  · rename_i hocc
    cases key with
    | nil => rfl
    | cons i key => simp [hoth (i := i) (by simp [hocc])]
  · rename_i v hocc
    cases key with
    | nil => rfl
    | cons i key => simp [hoth (i := i) (by simp [hocc])]
  · rename_i i hocc
    rw [get_join]
    cases key with
    | nil => simp
    | cons j key =>
      by_cases hij : i = j
      · subst hij
        simp
      · simp [hij, hoth (i := j) (by simp [hocc, Ne.symm hij])]
  · rfl

def Fan.Free (fan : Fan n V) (rest : List (Fin n)) : Prop :=
  ∀ i ∈ rest.head?, fan.1 i = empty

variable {fan : Fan n V} {rest : List (Fin n)}

theorem Fan.get_place (hfree : fan.Free rest) :
    (fan.place rest v).tree.get key = if key = rest then some v else fan.tree.get key := by
  cases rest with
  | nil => cases key <;> simp [place, Fan.tree]
  | cons i rest =>
    cases key with
    | nil => simp [place, Fan.tree]
    | cons j key =>
      by_cases hij : j = i
      · subst hij
        simp [place, Fan.tree, hfree j rfl]
      · simp [place, Fan.tree, hij]

theorem Fan.get_hang_nil (hrest : rest ≠ []) :
    (Fan.nil.hang rest t).tree.get key =
      if rest <+: key then t.get (key.drop rest.length) else none := by
  cases rest with
  | nil => exact (hrest rfl).elim
  | cons i rest =>
    cases key with
    | nil => simp [hang, Fan.tree, Fan.nil]
    | cons j key =>
      by_cases hij : i = j
      · subst hij
        simp [hang, Fan.tree, get_extend]
      · simp [hang, Fan.tree, Fan.nil, hij, Ne.symm hij]

theorem get_extend_place (hfree : fan.Free (key.drop (commonLength k key))) :
    (extend (k.take (commonLength k key)) (fan.place (key.drop (commonLength k key)) v).tree).get
        key' =
      if key' = key then some v else (extend (k.take (commonLength k key)) fan.tree).get key' := by
  have hkey : key = k.take (commonLength k key) ++ key.drop (commonLength k key) := by
    rw [take_commonLength, take_append_drop]
  have hiff : key' = k.take (commonLength k key) ++ key.drop (commonLength k key) ↔ _ :=
    append_eq_iff
  rw [← hkey] at hiff
  rw [get_extend, get_extend, Fan.get_place hfree]
  by_cases hp : k.take (commonLength k key) <+: key'
  · simp [hp, hiff]
  · simp [hp, hiff]

theorem free_drop_commonLength
    (h : ∀ i, fan.1 i ≠ empty → (k.drop (commonLength k key)).head? = some i) :
    fan.Free (key.drop (commonLength k key)) := by
  intro i hi
  refine not_not.mp fun hne => ?_
  obtain ⟨k', hk'⟩ := head?_eq_some_iff.mp (h i hne)
  obtain ⟨r, hr⟩ := head?_eq_some_iff.mp hi
  exact drop_commonLength_ne hk' hr

theorem get_insert (t : Tree n V) (key : List (Fin n)) (v : V) (key' : List (Fin n)) :
    (t.insert key v).get key' = if key' = key then some v else t.get key' := by
  induction t generalizing key key' with
  | empty => rfl
  | leaf k w =>
    rw [insert]
    split
    · subst k
      by_cases h : key' = key <;> simp [h]
    · rw [get_extend_place, get_extend, Fan.get_place (by simp [Fan.Free, Fan.nil])]
      · -- below the common part only the old word is left
        have hk : key' = k.take (commonLength k key) ++ k.drop (commonLength k key) ↔ _ :=
          append_eq_iff
        rw [take_append_drop] at hk
        have hnil (r : List (Fin n)) : (Fan.nil : Fan n V).tree.get r = none := by
          cases r <;> rfl
        by_cases hp : k.take (commonLength k key) <+: key' <;> simp [hk, hp, hnil]
      · apply free_drop_commonLength
        intro i hi
        cases hrest : k.drop (commonLength k key) with
        | nil => simp [hrest, Fan.place, Fan.nil] at hi
        | cons j rest =>
          by_cases hij : i = j
          · simp [hij]
          · simp [hrest, Fan.place, Fan.nil, hij] at hi
  | ext k t ih =>
    rw [insert]
    split
    · rename_i hk
      obtain ⟨r, rfl⟩ := hk
      simp only [get_ext, ih]
      by_cases hp : k <+: key'
      · obtain ⟨r', rfl⟩ := hp
        simp
      · have hne : key' ≠ k ++ r := fun h => hp ⟨r, h.symm⟩
        simp [hp, hne]
    · rename_i hk
      have hrest := drop_commonLength_ne_nil hk
      rw [get_extend_place, get_extend, Fan.get_hang_nil hrest]
      · have hk : k.take (commonLength k key) ++ k.drop (commonLength k key) <+: key' ↔ _ :=
          append_prefix_iff
        rw [take_append_drop] at hk
        have hlen : (k.take (commonLength k key)).length + (k.drop (commonLength k key)).length =
            k.length := by
          rw [← length_append, take_append_drop]
        rw [drop_drop, hlen]
        by_cases hp : k.take (commonLength k key) <+: key' <;> simp [hk, hp]
      · apply free_drop_commonLength
        intro i hi
        cases hrest : k.drop (commonLength k key) with
        | nil => simp [hrest, Fan.hang, Fan.nil] at hi
        | cons j rest =>
          by_cases hij : i = j
          · simp [hij]
          · simp [hrest, Fan.hang, Fan.nil, hij] at hi
  | branch cs w ih =>
    cases key with
    | nil => cases key' <;> simp [insert]
    | cons i key =>
      cases key' with
      | nil => simp [insert]
      | cons j key' =>
        by_cases hij : j = i
        · subst hij
          simp [insert, ih]
        · simp [insert, hij]

/-! What a deletion that found its key does, constructor by constructor. -/

theorem delete_ext_of_found (h : ((ext k t).delete key).2 = true) :
    k <+: key ∧ ((ext k t).delete key).1 = join k (t.delete (key.drop k.length)).1 := by
  simp only [delete] at h ⊢
  split_ifs at h ⊢ with hk hr
  exact ⟨hk, rfl⟩

theorem delete_branch_nil_of_found {cs : Fin n → Tree n V}
    (h : ((branch cs v).delete []).2 = true) : ((branch cs v).delete []).1 = compact cs none := by
  simp only [delete] at h ⊢
  split_ifs at h ⊢ with hv
  rfl

theorem delete_branch_cons_of_found {cs : Fin n → Tree n V} {v : Option V}
    (h : ((branch cs v).delete (i :: key)).2 = true) :
    ((branch cs v).delete (i :: key)).1 = compact (update cs i ((cs i).delete key).1) v := by
  simp only [delete] at h ⊢
  split_ifs at h ⊢ with hr
  rfl

theorem delete_eq_self (h : (t.delete key).2 = false) : (t.delete key).1 = t := by
  cases t with
  | empty => rfl
  | leaf k v =>
    simp only [delete] at h ⊢
    split_ifs at h ⊢ with hk
    rfl
  | ext k t =>
    simp only [delete] at h ⊢
    split_ifs at h ⊢ with hk hr <;> rfl
  | branch cs v =>
    cases key with
    | nil =>
      simp only [delete] at h ⊢
      split_ifs at h ⊢ with hv
      rfl
    | cons i key =>
      simp only [delete] at h ⊢
      split_ifs at h ⊢ with hr
      rfl

theorem delete_snd : (t.delete key).2 = (t.get key).isSome := by
  induction t generalizing key with
  | empty => rfl
  | leaf k v =>
    rw [delete, get_leaf]
    split <;> rfl
  | ext k t ih =>
    rw [delete, get_ext]
    split
    · dsimp only
      rw [← ih]
      split_ifs with h <;> simp [h]
    · rfl
  | branch cs v ih =>
    cases key with
    | nil =>
      rw [delete]
      split_ifs with h <;> simp [h]
    | cons i key =>
      rw [get_branch_cons, ← ih]
      simp only [delete]
      split_ifs with h <;> simp [h]

theorem get_delete_of_absent (h : (t.delete key).2 = false) :
    (t.delete key).1.get key' = if key' = key then none else t.get key' := by
  rw [delete_eq_self h]
  rw [delete_snd, Option.isSome_eq_false_iff, Option.isNone_iff_eq_none] at h
  split
  · subst key'
    exact h
  · rfl

theorem get_delete : (t.delete key).1.get key' = if key' = key then none else t.get key' := by
  induction t generalizing key key' with
  | empty => simp [delete]
  | leaf k v =>
    cases hd : ((leaf k v).delete key).2 with
    | false => exact get_delete_of_absent hd
    | true =>
      simp only [delete] at hd ⊢
      split_ifs at hd with hk
      subst key
      by_cases h : key' = k <;> simp [h]
  | ext k t ih =>
    cases hd : ((ext k t).delete key).2 with
    | false => exact get_delete_of_absent hd
    | true =>
      obtain ⟨⟨r, rfl⟩, heq⟩ := delete_ext_of_found hd
      rw [heq, get_join, ih]
      by_cases hp : k <+: key'
      · obtain ⟨r', rfl⟩ := hp
        simp
      · simp [hp]
  | branch cs v ih =>
    cases hd : ((branch cs v).delete key).2 with
    | false => exact get_delete_of_absent hd
    | true =>
      cases key with
      | nil =>
        rw [delete_branch_nil_of_found hd, get_compact]
        cases key' <;> simp
      | cons i key =>
        rw [delete_branch_cons_of_found hd, get_compact]
        cases key' with
        | nil => simp
        | cons j key' =>
          by_cases hij : j = i
          · subst hij
            simp [ih]
          · simp [hij]

def Used (cs : Fin n → Tree n V) (v : Option V) : Option (Fin n) → Prop
  | none => v ≠ none
  | some i => cs i ≠ empty

def Forks (cs : Fin n → Tree n V) (v : Option V) : Prop :=
  ∃ a b, a ≠ b ∧ Used cs v a ∧ Used cs v b

def Canonical : Tree n V → Prop
  | empty => True
  | leaf _ _ => True
  | ext k c => k ≠ [] ∧ c.isBranch = true ∧ c.Canonical
  | branch cs v => (∀ i, (cs i).Canonical) ∧ Forks cs v

theorem Canonical.extend (ht : t.Canonical) (hb : t.isBranch = true) (k : List (Fin n)) :
    (extend k t).Canonical := by
  unfold Tree.extend
  split
  · exact ht
  · exact ⟨‹_›, hb, ht⟩

theorem Canonical.join (ht : t.Canonical) (hk : k ≠ []) : (join k t).Canonical := by
  cases t with
  | empty => trivial
  | leaf k' v => trivial
  | ext k' c => exact ⟨by simp [hk], ht.2⟩
  | branch cs v => exact ⟨hk, rfl, ht⟩

theorem Canonical.compact {cs : Fin n → Tree n V} (hcs : ∀ i, (cs i).Canonical) (v : Option V) :
    (compact cs v).Canonical := by
  have hused {i : Fin n} (h : i ∈ occupied cs) : Used cs v (some i) := mem_occupied.mp h
  unfold Tree.compact
  rcases hocc : occupied cs with _ | ⟨i, _ | ⟨j, rest⟩⟩
  · cases v <;> trivial
  · cases v with
    | none => exact (hcs i).join (by simp)
    | some w => exact ⟨hcs, none, some i, nofun, nofun, hused (by simp [hocc])⟩
  · have hnd : (occupied cs).Nodup := (nodup_finRange n).filter _
    have hij : i ≠ j := by
      rintro rfl
      simp [hocc] at hnd
    exact ⟨hcs, some i, some j, by simpa using hij, hused (by simp [hocc]), hused (by simp [hocc])⟩

theorem Canonical.delete (ht : t.Canonical) (key : List (Fin n)) : (t.delete key).1.Canonical := by
  induction t generalizing key with
  | empty => trivial
  | leaf k v =>
    rw [Tree.delete]
    split <;> trivial
  | ext k t ih =>
    cases hd : ((ext k t).delete key).2 with
    | false => rwa [delete_eq_self hd]
    | true =>
      rw [(delete_ext_of_found hd).2]
      exact (ih ht.2.2 _).join ht.1
  | branch cs v ih =>
    cases hd : ((branch cs v).delete key).2 with
    | false => rwa [delete_eq_self hd]
    | true =>
      cases key with
      | nil =>
        rw [delete_branch_nil_of_found hd]
        exact compact ht.1 _
      | cons i key =>
        rw [delete_branch_cons_of_found hd]
        refine compact (fun j => ?_) _
        by_cases hij : j = i
        · subst hij
          simpa using ih j (ht.1 j) key
        · simpa [hij] using ht.1 j

theorem isBranch_insert (ht : t.isBranch = true) : (t.insert key v).isBranch = true := by
  cases t with
  | branch cs w => cases key <;> rfl
  | _ => cases ht

theorem extend_ne_empty (ht : t.isBranch = true) : extend k t ≠ empty := by
  unfold extend
  split
  · rintro rfl
    cases ht
  · nofun

theorem insert_ne_empty (t : Tree n V) (key : List (Fin n)) (v : V) : t.insert key v ≠ empty := by
  intro h
  have hget := get_insert t key v key
  simp [h] at hget

theorem Fan.canonical_place {a : Option (Fin n)} (hcs : ∀ i, (fan.1 i).Canonical)
    (ha : Used fan.1 fan.2 a) (hne : a ≠ rest.head?) : (fan.place rest v).tree.Canonical := by
  cases rest with
  | nil =>
    refine ⟨hcs, a, none, hne, ?_, nofun⟩
    cases a with
    | none => exact (hne rfl).elim
    | some i => exact ha
  | cons j rest =>
    refine ⟨fun i => ?_, a, some j, hne, ?_, by simp [Used, place]⟩
    · by_cases hij : i = j
      · simp [place, hij, Canonical]
      · simpa [place, hij] using hcs i
    · cases a with
      | none => exact ha
      | some i =>
        have hij : i ≠ j := fun h => hne (by simp [h])
        simpa [Used, place, hij] using ha

theorem Canonical.insert (ht : t.Canonical) (key : List (Fin n)) (v : V) :
    (t.insert key v).Canonical := by
  induction t generalizing key with
  | empty => trivial
  | leaf k w =>
    rw [Tree.insert]
    split
    · trivial
    · rename_i hk
      refine extend (Fan.canonical_place (a := (k.drop (commonLength k key)).head?) ?_ ?_
        (head?_drop_commonLength_ne hk)) rfl _
      · intro i
        cases k.drop (commonLength k key) with
        | nil => trivial
        | cons j rest => by_cases hij : i = j <;> simp [Fan.place, Fan.nil, hij, Canonical]
      · cases k.drop (commonLength k key) <;> simp [Fan.place, Used]
  | ext k t ih =>
    rw [Tree.insert]
    split
    · exact ⟨ht.1, isBranch_insert ht.2.1, ih ht.2.2 _⟩
    · rename_i hk
      have hne : k ≠ key := fun h => hk (h ▸ prefix_rfl)
      have hrest := drop_commonLength_ne_nil hk
      refine extend (Fan.canonical_place (a := (k.drop (commonLength k key)).head?) ?_ ?_
        (head?_drop_commonLength_ne hne)) rfl _
      · intro i
        cases k.drop (commonLength k key) with
        | nil => trivial
        | cons j rest =>
          by_cases hij : i = j
          · simpa [Fan.hang, hij] using ht.2.2.extend ht.2.1 rest
          · simp [Fan.hang, Fan.nil, hij, Canonical]
      · cases hk' : k.drop (commonLength k key) with
        | nil => exact (hrest hk').elim
        | cons j rest => simpa [Fan.hang, Used] using extend_ne_empty ht.2.1
  | branch cs w ih =>
    obtain ⟨hcs, a, b, hab, ha, hb⟩ := ht
    cases key with
    | nil =>
      refine ⟨hcs, a, b, hab, ?_, ?_⟩
      · cases a with
        | none => nofun
        | some i => exact ha
      · cases b with
        | none => nofun
        | some i => exact hb
    | cons j key =>
      have hkeep {a : Option (Fin n)} (ha : Used cs w a) :
          Used (update cs j ((cs j).insert key v)) w a := by
        cases a with
        | none => exact ha
        | some i =>
          by_cases hij : i = j
          · simp [Used, hij, insert_ne_empty]
          · simpa [Used, hij] using ha
      refine ⟨fun i => ?_, a, b, hab, hkeep ha, hkeep hb⟩
      by_cases hij : i = j
      · simpa [hij] using ih j (hcs j) key
      · simpa [hij] using hcs i

theorem Forks.ne_of_occupied (h : Forks cs none)
    (hocc : occupied (update cs i t) = [j]) : j ≠ i := by
  rintro rfl
  obtain ⟨a, b, hab, ha, hb⟩ := h
  have hoth {a : Option (Fin n)} (ha : Used cs none a) : a = some j := by
    cases a with
    | none => exact (ha rfl).elim
    | some k =>
      refine congrArg some (not_not.mp fun hkj => ?_)
      have hk : k ∈ occupied (update cs j t) := mem_occupied.mpr (by simpa [hkj, Used] using ha)
      rw [hocc, mem_singleton] at hk
      exact hkj hk
  exact hab ((hoth ha).trans (hoth hb).symm)

/-- `P` holds of every subtree but the tree itself. -/
def Below (P : Tree n V → Prop) : Tree n V → Prop
  | empty => True
  | leaf _ _ => True
  | ext _ c => P c ∧ c.Below P
  | branch cs _ => ∀ i, P (cs i) ∧ (cs i).Below P

def Child (c : Tree n V) : Tree n V → Prop
  | empty => False
  | leaf _ _ => False
  | ext _ d => d = c
  | branch cs _ => ∃ i, cs i = c

theorem child_induction {motive : Tree n V → Prop}
    (step : ∀ t, (∀ c, Child c t → motive c) → motive t) (t : Tree n V) : motive t := by
  induction t with
  | empty => exact step _ fun _ h => h.elim
  | leaf k v => exact step _ fun _ h => h.elim
  | ext k c ih =>
    refine step _ ?_
    rintro _ rfl
    exact ih
  | branch cs v ih =>
    refine step _ ?_
    rintro _ ⟨i, rfl⟩
    exact ih i

variable {c : Tree n V}

theorem Below.child (h : t.Below P) (hc : c.Child t) : P c ∧ c.Below P := by
  cases t with
  | empty => exact hc.elim
  | leaf k v => exact hc.elim
  | ext k d =>
    obtain rfl := hc
    exact h
  | branch cs v =>
    obtain ⟨i, rfl⟩ := hc
    exact h i

theorem Below.of_forall (h : ∀ t, P t) (t : Tree n V) : t.Below P := by
  induction t with
  | empty => trivial
  | leaf k v => trivial
  | ext k c ih => exact ⟨h c, ih⟩
  | branch cs v ih => exact fun i => ⟨h (cs i), ih i⟩

theorem Below.imp {P' Q : Tree n V → Prop} (h : t.Below P) (ht : Q t)
    (hch : ∀ {c t}, Q t → Child c t → Q c) (himp : ∀ {c}, Q c → P c → P' c) : t.Below P' := by
  induction t with
  | empty => trivial
  | leaf k v => trivial
  | ext k c ih =>
    have hc := hch ht rfl
    exact ⟨himp hc h.1, ih h.2 hc⟩
  | branch cs v ih =>
    intro i
    have hc := hch ht ⟨i, rfl⟩
    exact ⟨himp hc (h i).1, ih i (h i).2 hc⟩

theorem Child.exists_path (h : c.Child t) : ∃ path, ∀ key, t.get (path ++ key) = c.get key := by
  cases t with
  | empty => exact h.elim
  | leaf k v => exact h.elim
  | ext k d =>
    obtain rfl := h
    exact ⟨k, fun key => by simp⟩
  | branch cs v =>
    obtain ⟨i, rfl⟩ := h
    exact ⟨[i], fun key => rfl⟩

theorem Canonical.child (h : t.Canonical) (hc : c.Child t) : c.Canonical := by
  cases t with
  | empty => exact hc.elim
  | leaf k v => exact hc.elim
  | ext k d =>
    obtain rfl := hc
    exact h.2.2
  | branch cs v =>
    obtain ⟨i, rfl⟩ := hc
    exact h.1 i

theorem Canonical.exists_get (ht : t.Canonical) (hne : t ≠ empty) : ∃ key, t.get key ≠ none := by
  induction t with
  | empty => exact (hne rfl).elim
  | leaf k v => exact ⟨k, by simp⟩
  | ext k c ih =>
    have hc : c ≠ empty := by
      rintro rfl
      exact nomatch ht.2.1
    obtain ⟨key, hkey⟩ := ih ht.2.2 hc
    exact ⟨k ++ key, by simpa using hkey⟩
  | branch cs v ih =>
    obtain ⟨hcs, a, -, -, ha, -⟩ := ht
    cases a with
    | none => exact ⟨[], ha⟩
    | some i =>
      obtain ⟨key, hkey⟩ := ih i (hcs i) ha
      exact ⟨i :: key, hkey⟩

theorem Canonical.exists_get_of_used {cs : Fin n → Tree n V} (ht : (branch cs v).Canonical)
    (ha : Used cs v a) : ∃ key, key.head? = a ∧ (branch cs v).get key ≠ none := by
  cases a with
  | none => exact ⟨[], rfl, ha⟩
  | some i =>
    obtain ⟨key, hkey⟩ := (ht.1 i).exists_get ha
    exact ⟨i :: key, rfl, hkey⟩

theorem Canonical.exists_diverging (ht : t.Canonical) (hb : t.isBranch = true) :
    ∃ key key', key.head? ≠ key'.head? ∧ t.get key ≠ none ∧ t.get key' ≠ none := by
  cases t with
  | branch cs v =>
    obtain ⟨a, b, hab, ha, hb⟩ := ht.2
    obtain ⟨key, rfl, hkey⟩ := ht.exists_get_of_used ha
    obtain ⟨key', rfl, hkey'⟩ := ht.exists_get_of_used hb
    exact ⟨key, key', hab, hkey, hkey'⟩
  | _ => cases hb

def path : Tree n V → List (Fin n)
  | ext k _ => k
  | _ => []

theorem starts_with_path (h : t.get key ≠ none) : t.path <+: key := by
  cases t with
  | ext k c =>
    rw [get_ext] at h
    split_ifs at h with hk
    · exact hk
    · exact (h rfl).elim
  | _ => exact nil_prefix

section
variable (ht : t.Canonical)
include ht

theorem Canonical.exists_diverging_path (hne : t ≠ empty) (hleaf : ∀ k v, t ≠ leaf k v) :
    ∃ key key', key.head? ≠ key'.head? ∧ t.get (t.path ++ key) ≠ none ∧
      t.get (t.path ++ key') ≠ none := by
  cases t with
  | empty => exact (hne rfl).elim
  | leaf k v => exact (hleaf k v rfl).elim
  | ext k c => simpa [path] using ht.2.2.exists_diverging ht.2.1
  | branch cs v => exact ht.exists_diverging rfl

theorem Canonical.path_eq (ht' : t'.Canonical) (hne : t ≠ empty) (hleaf : ∀ k v, t ≠ leaf k v)
    (hne' : t' ≠ empty) (hleaf' : ∀ k v, t' ≠ leaf k v) (h : ∀ key, t.get key = t'.get key) :
    t.path = t'.path := by
  obtain ⟨a, b, hab, ha, hb⟩ := ht.exists_diverging_path hne hleaf
  obtain ⟨a', b', hab', ha', hb'⟩ := ht'.exists_diverging_path hne' hleaf'
  rw [h] at ha hb
  rw [← h] at ha' hb'
  exact List.IsPrefix.eq_of_length_le
    (prefix_of_diverging hab' (starts_with_path ha') (starts_with_path hb'))
    (prefix_of_diverging hab (starts_with_path ha) (starts_with_path hb)).length_le

theorem Canonical.eq_leaf (h : ∀ key, (leaf k v).get key = t.get key) : t = leaf k v := by
  have hk := h k
  cases t with
  | empty => simp at hk
  | leaf k' v' =>
    rw [get_leaf, get_leaf, if_pos rfl] at hk
    split_ifs at hk with hkk
    rw [hkk, Option.some.inj hk]
  | _ =>
    -- a tree with two words is not the tree of one word
    obtain ⟨a, b, hab, ha, hb⟩ := ht.exists_diverging_path nofun nofun
    rw [← h, get_leaf, ne_eq, ite_eq_right_iff, not_forall] at ha hb
    exact (hab (congrArg head? (append_cancel_left (ha.1.trans hb.1.symm)))).elim

theorem Canonical.not_empty_leaf (hne : t ≠ empty) (hleaf : ∀ k v, t ≠ leaf k v)
    (h : ∀ key, t.get key = t'.get key) : t' ≠ empty ∧ ∀ k v, t' ≠ leaf k v := by
  constructor
  · rintro rfl
    obtain ⟨key, hkey⟩ := ht.exists_get hne
    exact hkey (h key)
  · rintro k v rfl
    exact hleaf k v (ht.eq_leaf fun key => (h key).symm)

theorem Canonical.eq_of_get_eq (ht' : t'.Canonical) (h : ∀ key, t.get key = t'.get key) :
    t = t' := by
  induction t generalizing t' with
  | empty =>
    refine not_not.mp fun hne => ?_
    obtain ⟨key, hkey⟩ := ht'.exists_get (Ne.symm hne)
    exact hkey (h key).symm
  | leaf k v => exact (ht'.eq_leaf h).symm
  | ext k c ih =>
    obtain ⟨hne', hleaf'⟩ := ht.not_empty_leaf nofun nofun h
    have hpath := ht.path_eq ht' nofun nofun hne' hleaf' h
    cases t' with
    | empty => exact (hne' rfl).elim
    | leaf k' v => exact (hleaf' k' v rfl).elim
    | branch cs v => exact (ht.1 hpath).elim
    | ext k' c' =>
      obtain rfl : k = k' := hpath
      rw [ih ht.2.2 ht'.2.2 fun key => by simpa using h (k ++ key)]
  | branch cs v ih =>
    obtain ⟨hne', hleaf'⟩ := ht.not_empty_leaf nofun nofun h
    have hpath := ht.path_eq ht' nofun nofun hne' hleaf' h
    cases t' with
    | empty => exact (hne' rfl).elim
    | leaf k' v => exact (hleaf' k' v rfl).elim
    | ext k' c' => exact (ht'.1 hpath.symm).elim
    | branch cs' v' =>
      obtain rfl : v = v' := h []
      have hcs : cs = cs' := funext fun i => ih i (ht.1 i) (ht'.1 i) fun key => h (i :: key)
      rw [hcs]

end

end Tree

end Radix
