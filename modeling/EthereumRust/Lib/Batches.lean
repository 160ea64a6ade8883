import Mathlib.Data.List.Chain
import Mathlib.Data.List.Sort
import Mathlib.Data.Prod.Lex

/-!
# Batches

A schedule is a list of batches. One item comes before another if every batch with the first stands
before every batch with the second (`Before`). A loop that fills a batch and opens the next one when
an item may not join (`cut`) keeps the order of the items.
-/

namespace Batches

open List

variable {α : Type}

structure Before (bs : List (List α)) (x y : α) : Prop where
  left : x ∈ bs.flatten
  right : y ∈ bs.flatten
  lt : ∀ (p q : Nat) (b c : List α), bs[p]? = some b → bs[q]? = some c → x ∈ b → y ∈ c → p < q

section
variable {y : α}

theorem before_of_not_after (hx : x ∈ bs.flatten) (hy : y ∈ bs.flatten)
    (hsame : ∀ b ∈ bs, x ∈ b → y ∉ b) (hacr : bs.Pairwise fun b c => y ∈ b → x ∉ c) :
    Before bs x y := by
  refine ⟨hx, hy, fun p q b c hb hc hxb hyc => ?_⟩
  by_contra hle
  rcases Nat.lt_or_eq_of_le (Nat.le_of_not_lt hle) with hlt | rfl
  · obtain ⟨hp, rfl⟩ := List.getElem?_eq_some_iff.mp hb
    obtain ⟨hq, rfl⟩ := List.getElem?_eq_some_iff.mp hc
    exact pairwise_iff_getElem.mp hacr q p hq hp hlt hyc hxb
  · obtain rfl := Option.some.inj (hb.symm.trans hc)
    exact hsame b (mem_of_getElem? hb) hxb hyc

theorem before_iff (hsame : ∀ b ∈ bs, x ∈ b → y ∉ b) :
    Before bs x y ↔
      x ∈ bs.flatten ∧ y ∈ bs.flatten ∧ bs.flatten.Pairwise fun a b => ¬(a = y ∧ b = x) := by
  rw [pairwise_flatten]
  constructor
  · intro H
    refine ⟨H.left, H.right, fun b hb => ?_, ?_⟩
    · refine pairwise_of_forall_mem_list fun a ha c hc h => ?_
      exact hsame b hb (h.2 ▸ hc) (h.1 ▸ ha)
    · refine pairwise_iff_getElem.mpr fun q p hq hp hqp a ha c hc h => ?_
      have hpq := H.lt p q _ _ (getElem?_eq_getElem hp) (getElem?_eq_getElem hq)
        (h.2 ▸ hc) (h.1 ▸ ha)
      omega
  · rintro ⟨hx, hy, -, hacr⟩
    refine before_of_not_after hx hy hsame (hacr.imp ?_)
    exact fun h hyb hxc => h y hyb x hxc ⟨rfl, rfl⟩

theorem before_of_pairwise (hR : bs.flatten.Pairwise R) (hyx : ¬R y x)
    (hsame : ∀ b ∈ bs, x ∈ b → y ∉ b) (hx : x ∈ bs.flatten) (hy : y ∈ bs.flatten) :
    Before bs x y := by
  refine (before_iff hsame).mpr ⟨hx, hy, hR.imp ?_⟩
  rintro a b hab ⟨rfl, rfl⟩
  exact hyx hab

end

section
variable {L : Type} [Preorder L]

structure Labelled (label : α → L) (bs : List (List α)) : Prop where
  same : ∀ b ∈ bs, ∀ x ∈ b, ∀ y ∈ b, label x = label y
  rising : bs.Pairwise fun b c => ∀ x ∈ b, ∀ y ∈ c, label x < label y

variable {label : α → L}

theorem Labelled.before_iff_lt (H : Labelled label bs) (hx : x ∈ bs.flatten) (hy : y ∈ bs.flatten) :
    Before bs x y ↔ label x < label y := by
  constructor
  · intro h
    have hris := pairwise_iff_getElem.mp H.rising
    obtain ⟨b, hb, hxb⟩ := mem_flatten.mp hx
    obtain ⟨c, hc, hyc⟩ := mem_flatten.mp hy
    obtain ⟨p, hp, rfl⟩ := getElem_of_mem hb
    obtain ⟨q, hq, rfl⟩ := getElem_of_mem hc
    have hlt := h.lt p q _ _ (getElem?_eq_getElem hp) (getElem?_eq_getElem hq) hxb hyc
    exact hris p q hp hq hlt x hxb y hyc
  · intro hlab
    refine before_of_not_after hx hy ?_ (H.rising.imp ?_)
    · exact fun b hb hxb hyb => ne_of_lt hlab (H.same b hb x hxb y hyb)
    · exact fun h hyb hxc => lt_asymm hlab (h y hyb x hxc)

theorem Labelled.concat (H : Labelled label bs) (hb : ∀ x ∈ b, label x = l)
    (hlt : ∀ x ∈ bs.flatten, label x < l) : Labelled label (bs ++ [b]) where
  same c hc x hx y hy := by
    rcases mem_append.mp hc with hc | hc
    · exact H.same c hc x hx y hy
    · rw [mem_singleton.mp hc] at hx hy
      exact (hb x hx).trans (hb y hy).symm
  rising := by
    refine pairwise_append.mpr ⟨H.rising, pairwise_singleton _ _, fun c hc d hd x hx y hy => ?_⟩
    rw [mem_singleton.mp hd] at hy
    rw [hb y hy]
    exact hlt x (mem_flatten.mpr ⟨c, hc, hx⟩)

end

def close (done : List (List α)) (current : List α) : List (List α) :=
  if current.isEmpty then done else done ++ [current]

theorem close_of_ne_nil {done : List (List α)} (h : cur ≠ []) : close done cur = done ++ [cur] :=
  if_neg (mt List.isEmpty_iff.mp h)

theorem flatten_close (cur : List α) : (close done cur).flatten = done.flatten ++ cur := by
  rw [close]
  split_ifs with h
  · rw [isEmpty_iff.mp h, append_nil]
  · rw [flatten_append, flatten_singleton]

section
variable (joins : List (List α) → List α → α → Bool)

def cut : List (List α) → List α → List α → List (List α)
  | done, current, [] => close done current
  | done, current, x :: xs =>
    if joins done current x then cut done (current ++ [x]) xs else cut (close done current) [x] xs

theorem cut_induct {P : List α → List (List α) → List α → Prop} (hnil : P [] [] [])
    (hjoin : ∀ ys done cur x, P ys done cur → joins done cur x = true →
      P (ys ++ [x]) done (cur ++ [x]))
    (hopen : ∀ ys done cur x, P ys done cur → joins done cur x = false →
      P (ys ++ [x]) (close done cur) [x]) :
    ∃ done cur, P xs done cur ∧ cut joins [] [] xs = close done cur := by
  have hrun : ∀ xs ys done cur, P ys done cur →
      ∃ done' cur', P (ys ++ xs) done' cur' ∧
        cut joins done cur xs = close done' cur' := by
    intro xs
    induction xs with
    | nil =>
      intro ys done cur h
      exact ⟨done, cur, (append_nil ys).symm ▸ h, rfl⟩
    | cons x xs ih =>
      intro ys done cur h
      rw [cut, append_cons]
      split_ifs with hjn
      · exact ih _ _ _ (hjoin ys done cur x h hjn)
      · exact ih _ _ _ (hopen ys done cur x h (Bool.eq_false_iff.mpr hjn))
  exact hrun xs [] [] [] hnil

variable {joins}

theorem flatten_cut : (cut joins [] [] xs).flatten = xs := by
  obtain ⟨done, cur, hflat, hcut⟩ := cut_induct joins
    (P := fun ys done cur => done.flatten ++ cur = ys) rfl
    (fun ys done cur x h _ => by rw [← h, append_assoc])
    (fun ys done cur x h _ => by rw [flatten_close, h])
  rw [hcut, flatten_close, hflat]

theorem ne_nil_of_mem_cut (hb : b ∈ cut joins [] [] xs) : b ≠ [] := by
  have hclo : ∀ done cur, (∀ b ∈ done, b ≠ []) →
      ∀ b ∈ close done cur, b ≠ ([] : List α) := by
    intro done cur hdone b hb
    rw [close] at hb
    split_ifs at hb with hemp
    · exact hdone b hb
    · rcases mem_append.mp hb with hb | hb
      · exact hdone b hb
      · rw [mem_singleton.mp hb]
        exact mt isEmpty_iff.mpr hemp
  obtain ⟨done, cur, hdone, hcut⟩ := cut_induct joins (P := fun _ done _ => ∀ b ∈ done, b ≠ [])
    (forall_mem_nil _) (fun ys done cur x h _ => h)
    (fun ys done cur x h _ => hclo done cur h)
  rw [hcut] at hb
  exact hclo done cur hdone b hb

def Grown (joins : List (List α) → List α → α → Bool) (front : List (List α)) (b : List α) : Prop :=
  ∀ pre x, pre ++ [x] <+: b → pre ≠ [] → joins front pre x = true

theorem grown_of_length_le (h : b.length ≤ 1) : Grown joins front b := by
  intro pre x hpre hne
  have hlen := hpre.length_le
  rw [length_append, length_singleton] at hlen
  exact absurd (length_eq_zero_iff.mp (by omega)) hne

theorem Grown.concat (H : Grown joins front b) (h : joins front b x = true) :
    Grown joins front (b ++ [x]) := by
  intro pre y hpre hne
  rcases prefix_concat_iff.mp hpre with heq | hpre
  · obtain ⟨rfl, rfl⟩ := append_singleton_inj.mp heq
    exact h
  · exact H pre y hpre hne

theorem Grown.pairwise (H : Grown joins front b)
    (h : ∀ pre x, joins front pre x = true → ∀ y ∈ pre, R y x) : b.Pairwise R := by
  induction b using reverseRecOn with
  | nil => exact .nil
  | append_singleton b x ih =>
    have hb : Grown joins front b := fun pre y hpre => H pre y (hpre.trans (prefix_append b [x]))
    refine pairwise_append.mpr ⟨ih hb, pairwise_singleton _ _, fun y hy z hz => ?_⟩
    rw [mem_singleton.mp hz]
    exact h b x (H b x (prefix_refl _) (ne_nil_of_mem hy)) y hy

theorem grown_close {done : List (List α)} {cur : List α}
    (hdone : ∀ front b, front ++ [b] <+: done → Grown joins front b) (hcur : Grown joins done cur)
    {b : List α} (h : front ++ [b] <+: close done cur) : Grown joins front b := by
  rw [close] at h
  split_ifs at h
  · exact hdone front b h
  · rcases prefix_concat_iff.mp h with h | h
    · obtain ⟨rfl, rfl⟩ := append_singleton_inj.mp h
      exact hcur
    · exact hdone front b h

theorem grown_cut (xs : List α) (h : front ++ [b] <+: cut joins [] [] xs) :
    Grown joins front b := by
  obtain ⟨done, cur, ⟨hdone, hcur⟩, hcut⟩ := cut_induct joins
    (P := fun _ done cur =>
      (∀ front b, front ++ [b] <+: done → Grown joins front b) ∧ Grown joins done cur)
    ⟨fun front b h => absurd (prefix_nil.mp h) (concat_ne_nil b front),
      grown_of_length_le (Nat.zero_le _)⟩
    (fun ys done cur x h hjn => ⟨h.1, h.2.concat hjn⟩)
    (fun ys done cur x h _ =>
      ⟨fun front b hb => grown_close h.1 h.2 hb, grown_of_length_le (le_refl _)⟩)
  rw [hcut] at h
  exact grown_close hdone hcur h

theorem exists_grown (hb : b ∈ cut joins [] [] xs) :
    ∃ front back, cut joins [] [] xs = front ++ b :: back ∧ Grown joins front b := by
  obtain ⟨front, back, hbs⟩ := append_of_mem hb
  refine ⟨front, back, hbs, grown_cut xs ⟨back, ?_⟩⟩
  rw [hbs, append_assoc, singleton_append]

theorem length_le_of_mem_cut {b : List α}
    (hjn : ∀ front pre x, joins front pre x = true → pre.length < m)
    (hb : b ∈ cut joins [] [] xs) : b.length ≤ max 1 m := by
  obtain ⟨front, -, -, H⟩ := exists_grown hb
  rcases eq_nil_or_concat' b with rfl | ⟨pre, x, rfl⟩
  · exact Nat.zero_le _
  · rw [length_append, length_singleton]
    by_cases hpre : pre = []
    · rw [hpre]
      exact le_max_left 1 m
    · have := hjn front pre x (H pre x (prefix_refl _) hpre)
      omega

end

section
variable {K : Type} [LinearOrder K]

def sortByKey (key : α → K) (l : List α) : List α := l.insertionSort fun a b => key a ≤ key b

def Stable (key : α → K) (s : α → α → Prop) (a b : α) : Prop :=
  key a < key b ∨ key a = key b ∧ s a b

variable {key : α → K} {s : α → α → Prop} {l : List α}

instance [DecidableRel s] : DecidableRel (Stable key s) := fun a b =>
  inferInstanceAs (Decidable (key a < key b ∨ key a = key b ∧ s a b))

theorem Stable.le (h : Stable key s a b) : key a ≤ key b := h.elim le_of_lt fun h => le_of_eq h.1

theorem Stable.asymm (hs : ∀ a b, s a b → ¬s b a) (h : Stable key s a b) : ¬Stable key s b a := by
  rintro (hba | ⟨hba, hsba⟩)
  · exact not_lt_of_ge h.le hba
  · rcases h with hab | ⟨-, hsab⟩
    · exact ne_of_gt hab hba
    · exact hs a b hsab hsba

theorem pairwise_orderedInsert (hl : l.Pairwise (Stable key s)) (ha : ∀ b ∈ l, s a b) :
    (l.orderedInsert (fun a b => key a ≤ key b) a).Pairwise (Stable key s) := by
  induction l with
  | nil => exact pairwise_singleton _ _
  | cons b l ih =>
    obtain ⟨hb, hl'⟩ := pairwise_cons.mp hl
    rw [orderedInsert_cons]
    split_ifs with hab
    · refine pairwise_cons.mpr ⟨fun c hc => ?_, hl⟩
      have hbc : key b ≤ key c := by
        rcases mem_cons.mp hc with rfl | hc
        · exact le_rfl
        · exact (hb c hc).le
      exact (lt_or_eq_of_le (hab.trans hbc)).imp_right fun heq => ⟨heq, ha c hc⟩
    · refine pairwise_cons.mpr ⟨fun c hc => ?_, ih hl' fun c hc => ha c (.tail _ hc)⟩
      rcases (mem_orderedInsert _).mp hc with rfl | hc
      · exact .inl (lt_of_not_ge hab)
      · exact hb c hc

theorem pairwise_sortByKey (hl : l.Pairwise s) : (sortByKey key l).Pairwise (Stable key s) := by
  induction l with
  | nil => exact .nil
  | cons a l ih =>
    obtain ⟨ha, hl'⟩ := pairwise_cons.mp hl
    refine pairwise_orderedInsert (ih hl') fun b hb => ha b ?_
    exact (mem_insertionSort _).mp hb

theorem perm_sortByKey (key : α → K) (l : List α) : (sortByKey key l).Perm l :=
  perm_insertionSort _ l

theorem sorted_sortByKey (key : α → K) (l : List α) :
    (sortByKey key l).Pairwise fun a b => key a ≤ key b := by
  have htrue : l.Pairwise fun _ _ => True := pairwise_of_forall fun _ _ => trivial
  exact (pairwise_sortByKey htrue).imp Stable.le

theorem le_of_pair_sortByKey (h : [a, b].Sublist (sortByKey key l)) : key a ≤ key b := by
  exact pairwise_iff_forall_sublist.mp (sorted_sortByKey key l) h

theorem pair_sortByKey (hle : key a ≤ key b) (h : [a, b].Sublist l) :
    [a, b].Sublist (sortByKey key l) :=
  pair_sublist_insertionSort hle h

theorem sortByKey_map {β : Type} (key : β → K) (f : α → β) :
    sortByKey key (l.map f) = (sortByKey (fun a => key (f a)) l).map f :=
  (map_insertionSort _ _ f l fun _ _ _ _ => Iff.rfl).symm

theorem countP_before {R : α → α → Prop} [DecidableRel R] (hR : ∀ a b, R a b → ¬R b a)
    (hxs : xs.Pairwise R) (h : xs = ys ++ x :: zs) :
    ys.countP p = xs.countP fun y => p y && R y x := by
  rw [h] at hxs ⊢
  obtain ⟨-, htail, hys⟩ := pairwise_append.mp hxs
  have haft : (x :: zs).countP (fun y => p y && R y x) = 0 := by
    refine countP_eq_zero.mpr fun z hz => ?_
    have hzx : ¬R z x := by
      rcases mem_cons.mp hz with rfl | hz
      · exact fun hxx => hR _ _ hxx hxx
      · exact hR _ _ ((pairwise_cons.mp htail).1 z hz)
    rw [decide_eq_false hzx, Bool.and_false]
    exact Bool.false_ne_true
  rw [countP_append, haft]
  refine countP_congr fun y hy => ?_
  rw [decide_eq_true (hys y hy x mem_cons_self), Bool.and_true]

def joinsRun (key : α → K) (m : Nat) (_ : List (List α)) (current : List α) (x : α) : Bool :=
  current.getLast?.all (fun y => key x ≤ key y) && current.length < m

def runLabel (key : α → K) (rank : α → Nat) (m : Nat) (x : α) : K ×ₗ Nat :=
  toLex (key x, rank x / m)

theorem runLabel_lt : runLabel key rank m x < runLabel key rank m y ↔
      key x < key y ∨ key x = key y ∧ rank x / m < rank y / m :=
  Prod.Lex.toLex_lt_toLex

structure Filling (key : α → K) (rank : α → Nat) (m : Nat) (ys : List α) (done : List (List α))
    (current : List α) (k : K) (q : Nat) : Prop where
  nonempty : current ≠ []
  length : current.length ≤ m
  keys : ∀ x ∈ current, key x = k
  ranks : ∀ x ∈ current, rank x / m = q
  below : ∀ x ∈ done.flatten, runLabel key rank m x < toLex (k, q)
  last : ∀ x ∈ ys, key x ≤ k
  count : (ys.countP fun y => key y = k) = q * m + current.length

theorem Filling.label (H : Filling key rank m ys done cur k q) (hx : x ∈ cur) :
    runLabel key rank m x = toLex (k, q) := by
  rw [runLabel, H.keys x hx, H.ranks x hx]

theorem Filling.join (H : Filling key rank m ys done cur k q)
    (hrank : rank x = ys.countP fun y => key y = key x) (hx : key x = k) (hlen : cur.length < m) :
    Filling key rank m (ys ++ [x]) done (cur ++ [x]) k q := by
  have hq : rank x / m = q := by
    rw [hrank, hx, H.count, Nat.add_comm, Nat.add_mul_div_right _ _ (Nat.zero_lt_of_lt hlen),
      Nat.div_eq_of_lt hlen, Nat.zero_add]
  refine ⟨concat_ne_nil _ _, ?_, ?_, ?_, H.below, ?_, ?_⟩
  · rw [length_append]
    exact hlen
  · exact forall_mem_append.mpr ⟨H.keys, forall_mem_singleton.mpr hx⟩
  · exact forall_mem_append.mpr ⟨H.ranks, forall_mem_singleton.mpr hq⟩
  · exact forall_mem_append.mpr ⟨H.last, forall_mem_singleton.mpr (le_of_eq hx)⟩
  · rw [countP_append, H.count, length_append, length_singleton, Nat.add_assoc,
      countP_singleton, if_pos (decide_eq_true hx)]

theorem filling_singleton (hm : 0 < m) (hrank : rank x = ys.countP fun y => key y = key x)
    (hfull : rank x = q * m) (hlast : ∀ y ∈ ys, key y ≤ key x)
    (hbel : ∀ y ∈ done.flatten, runLabel key rank m y < toLex (key x, q)) :
    Filling key rank m (ys ++ [x]) done [x] (key x) q := by
  refine ⟨cons_ne_nil _ _, hm, ?_, ?_, hbel, ?_, ?_⟩
  · exact forall_mem_singleton.mpr rfl
  · rw [forall_mem_singleton, hfull, Nat.mul_div_cancel _ hm]
  · exact forall_mem_append.mpr ⟨hlast, forall_mem_singleton.mpr le_rfl⟩
  · rw [countP_append, ← hrank, hfull, countP_singleton, if_pos (decide_eq_true rfl),
      length_singleton]

theorem Filling.next (H : Filling key rank m ys done cur k q) (hm : 0 < m)
    (hrank : rank x = ys.countP fun y => key y = key x) (hlast : ∀ y ∈ ys, key y ≤ key x)
    (hk : k ≤ key x) (hopen : k < key x ∨ m ≤ cur.length) :
    ∃ q', Filling key rank m (ys ++ [x]) (done ++ [cur]) [x] (key x) q' := by
  have hbel : ∀ l, toLex (k, q) < l →
      ∀ y ∈ (done ++ [cur]).flatten, runLabel key rank m y < l := by
    intro l hl y hy
    rw [flatten_append, flatten_singleton] at hy
    rcases mem_append.mp hy with hy | hy
    · exact (H.below y hy).trans hl
    · rw [H.label hy]
      exact hl
  rcases lt_or_eq_of_le hk with hlt | rfl
  · -- the first item with its key
    have hzero : rank x = 0 * m := by
      rw [hrank, Nat.zero_mul, countP_eq_zero]
      intro y hy hkey
      rw [decide_eq_true_eq] at hkey
      exact absurd (H.last y hy) (not_le_of_gt (hkey ▸ hlt))
    exact ⟨0, filling_singleton hm hrank hzero hlast
      (hbel _ (Prod.Lex.toLex_lt_toLex.mpr (.inl hlt)))⟩
  · have hlen : cur.length = m :=
      Nat.le_antisymm H.length (hopen.resolve_left (lt_irrefl _))
    have hfull : rank x = (q + 1) * m := by
      rw [hrank, H.count, hlen, Nat.succ_mul]
    exact ⟨q + 1, filling_singleton hm hrank hfull hlast
      (hbel _ (Prod.Lex.toLex_lt_toLex.mpr (.inr ⟨rfl, Nat.lt_succ_self q⟩)))⟩

theorem Filling.le (H : Filling key rank m ys done cur k q) {l : K} (hl : ∀ y ∈ ys, key y ≤ l) :
    k ≤ l := by
  have hpos : 0 < ys.countP fun y => key y = k := by
    rw [H.count]
    exact Nat.add_pos_right _ (length_pos_iff.mpr H.nonempty)
  obtain ⟨y, hy, hkey⟩ := countP_pos_iff.mp hpos
  rw [← of_decide_eq_true hkey]
  exact hl y hy

theorem Filling.joinsRun_iff (H : Filling key rank m ys done cur k q) :
    joinsRun key m done cur x = true ↔ key x ≤ k ∧ cur.length < m := by
  have hkey := H.keys _ (getLast_mem H.nonempty)
  rw [joinsRun, getLast?_eq_some_getLast H.nonempty, Option.all_some, Bool.and_eq_true,
    decide_eq_true_eq, decide_eq_true_eq, hkey]

theorem Filling.labelled (H : Filling key rank m ys done cur k q)
    (hdone : Labelled (runLabel key rank m) done) :
    Labelled (runLabel key rank m) (done ++ [cur]) :=
  hdone.concat (fun _ hx => H.label hx) H.below

theorem labelled_cut (hm : 0 < m) {xs : List α} (hsrt : xs.Pairwise fun a b => key a ≤ key b)
    (hrank : ∀ ys x zs, xs = ys ++ x :: zs → rank x = ys.countP fun y => key y = key x) :
    Labelled (runLabel key rank m) (cut (joinsRun key m) [] [] xs) := by
  -- what a further item of the list is known to be
  have hnext : ∀ ys x, ys ++ [x] <+: xs →
      (rank x = ys.countP fun y => key y = key x) ∧ ∀ y ∈ ys, key y ≤ key x := by
    rintro ys x ⟨zs, hzs⟩
    rw [append_assoc] at hzs
    refine ⟨hrank ys x zs hzs.symm, fun y hy => ?_⟩
    rw [← hzs] at hsrt
    exact (pairwise_append.mp hsrt).2.2 y hy x mem_cons_self
  let P (ys : List α) (done : List (List α)) (cur : List α) : Prop :=
    ys <+: xs → Labelled (runLabel key rank m) done ∧
      ((ys = [] ∧ done = [] ∧ cur = []) ∨ ∃ k q, Filling key rank m ys done cur k q)
  have hjoin : ∀ ys done cur x, P ys done cur → joinsRun key m done cur x = true →
      P (ys ++ [x]) done (cur ++ [x]) := by
    intro ys done cur x h hjn hys
    obtain ⟨hdone, hst⟩ := h ((prefix_append ys [x]).trans hys)
    obtain ⟨hr, hlast⟩ := hnext ys x hys
    refine ⟨hdone, .inr ?_⟩
    rcases hst with ⟨rfl, rfl, rfl⟩ | ⟨k, q, H⟩
    · exact ⟨key x, 0, filling_singleton hm hr (hr.trans (Nat.zero_mul m).symm) hlast
        (forall_mem_nil _)⟩
    · obtain ⟨hkey, hlen⟩ := H.joinsRun_iff.mp hjn
      exact ⟨k, q, H.join hr (le_antisymm hkey (H.le hlast)) hlen⟩
  have hopen : ∀ ys done cur x, P ys done cur → joinsRun key m done cur x = false →
      P (ys ++ [x]) (close done cur) [x] := by
    intro ys done cur x h hjn hys
    obtain ⟨hdone, hst⟩ := h ((prefix_append ys [x]).trans hys)
    obtain ⟨hr, hlast⟩ := hnext ys x hys
    rcases hst with ⟨rfl, rfl, rfl⟩ | ⟨k, q, H⟩
    · exact ⟨hdone, .inr ⟨key x, 0, filling_singleton hm hr (hr.trans (Nat.zero_mul m).symm) hlast
        (forall_mem_nil _)⟩⟩
    · rw [close_of_ne_nil H.nonempty]
      have hfull : k < key x ∨ m ≤ cur.length := by
        by_contra hcon
        rw [not_or, not_lt, not_le] at hcon
        rw [H.joinsRun_iff.mpr hcon] at hjn
        cases hjn
      obtain ⟨q', H'⟩ := H.next hm hr hlast (H.le hlast) hfull
      exact ⟨H.labelled hdone, .inr ⟨key x, q', H'⟩⟩
  obtain ⟨done, cur, hst, hcut⟩ := cut_induct (joinsRun key m) (P := P)
    (fun _ => ⟨⟨forall_mem_nil _, .nil⟩, .inl ⟨rfl, rfl, rfl⟩⟩) hjoin hopen
  obtain ⟨hdone, ⟨-, rfl, rfl⟩ | ⟨k, q, H⟩⟩ := hst (prefix_refl xs)
  · rw [hcut]
    exact hdone
  · rw [hcut, close_of_ne_nil H.nonempty]
    exact H.labelled hdone

end

end Batches
