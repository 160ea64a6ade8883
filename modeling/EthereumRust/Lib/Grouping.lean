import Mathlib.Data.Finset.Lattice.Lemmas

/-!
# Grouping what is apart

A loop over a list opens a group with each item that is in no group yet, and puts into it all other
such items that are apart from the first one (`groups`).

Members of a group need not be apart from each other. If "apart" means unrelated in a partial order
and some item is apart from two related ones, then some way to list the items in this order makes
the loop put two related items into one group (`exists_related_in_group`).
-/

namespace Grouping

open List Finset

variable {ι : Type}

section
variable (apart : ι → ι → Bool)

def split : List ι → List (List ι)
  | [] => []
  | x :: rest => (x :: rest.filter (apart x)) :: split (rest.filter (!apart x ·))
termination_by l => l.length
decreasing_by
  rw [List.length_unattach]
  exact Nat.lt_succ_of_le ((List.length_filter_le ..).trans_eq List.length_attach)

variable [DecidableEq ι]

def join (leader : ι) (s : List ι × Finset ι) (other : ι) : List ι × Finset ι :=
  if other ∈ s.2 then s
  else if apart leader other then (s.1 ++ [other], insert other s.2)
  else s

def lead (order : List ι) (s : List (List ι) × Finset ι) (x : ι) : List (List ι) × Finset ι :=
  if x ∈ s.2 then s
  else
    let (group, processed) := order.foldl (join apart x) ([x], insert x s.2)
    (s.1 ++ [group], processed)

def groups (order : List ι) : List (List ι) := (order.foldl (lead apart order) ([], ∅)).1

end

variable {apart : ι → ι → Bool}

section
variable [DecidableEq ι] {seen : Finset ι}

def pending : Finset ι → List ι → List ι
  | _, [] => []
  | seen, x :: rest => if x ∈ seen then pending seen rest else x :: pending (insert x seen) rest

theorem pending_of_mem (h : x ∈ seen) : pending seen (x :: rest) = pending seen rest := if_pos h

theorem pending_of_notMem (h : x ∉ seen) :
    pending seen (x :: rest) = x :: pending (insert x seen) rest :=
  if_neg h

theorem mem_pending : x ∈ pending seen l ↔ x ∈ l ∧ x ∉ seen := by
  induction l generalizing seen with
  | nil => simp [pending]
  | cons y rest ih =>
    by_cases hy : y ∈ seen
    · rw [pending_of_mem hy]
      grind
    · rw [pending_of_notMem hy]
      grind

theorem nodup_pending : (pending seen l).Nodup := by
  induction l generalizing seen with
  | nil => exact .nil
  | cons y rest ih =>
    by_cases hy : y ∈ seen
    · rw [pending_of_mem hy]
      exact ih
    · rw [pending_of_notMem hy, nodup_cons, mem_pending]
      exact ⟨fun h => h.2 (mem_insert_self y seen), ih⟩

theorem pending_of_nodup (h : l.Nodup) (hseen : ∀ x ∈ l, x ∉ seen) : pending seen l = l := by
  induction l generalizing seen with
  | nil => rfl
  | cons y rest ih =>
    obtain ⟨hy, hrest⟩ := nodup_cons.mp h
    rw [pending_of_notMem (hseen y mem_cons_self), ih hrest]
    intro x hx hmem
    obtain rfl | hmem := Finset.mem_insert.mp hmem
    · exact hy hx
    · exact hseen x (mem_cons_of_mem _ hx) hmem

theorem pending_append (h : ∀ x ∈ pre, x ∈ seen) :
    pending seen (pre ++ rest) = pending seen rest := by
  induction pre with
  | nil => rfl
  | cons y pre ih =>
    rw [cons_append, pending_of_mem (h y mem_cons_self)]
    exact ih fun x hx => h x (mem_cons_of_mem _ hx)

theorem pending_union : pending (seen ∪ more) l = (pending seen l).filter (· ∉ more) := by
  induction l generalizing seen with
  | nil => rfl
  | cons y rest ih =>
    by_cases hy : y ∈ seen
    · rw [pending_of_mem hy, pending_of_mem (mem_union_left more hy), ih]
    · rw [pending_of_notMem hy]
      by_cases hmore : y ∈ more
      · rw [pending_of_mem (mem_union_right seen hmore), List.filter_cons_of_neg (by simpa),
          ← ih, insert_union, insert_eq_of_mem (mem_union_right seen hmore)]
      · rw [pending_of_notMem (by simp [hy, hmore]), List.filter_cons_of_pos (by simpa), ← ih,
          insert_union]

theorem foldl_join : l.foldl (join apart x) (group, seen) =
    (group ++ (pending seen l).filter (apart x),
      seen ∪ ((pending seen l).filter (apart x)).toFinset) := by
  induction l generalizing group seen with
  | nil => simp [pending]
  | cons y rest ih =>
    rw [foldl_cons]
    by_cases hy : y ∈ seen
    · rw [pending_of_mem hy, ← ih, join, if_pos hy]
    · rw [pending_of_notMem hy]
      by_cases hap : apart x y = true
      · rw [join, if_neg hy, if_pos hap, ih, filter_cons_of_pos hap]
        simp [insert_union, Finset.union_insert]
      · rw [join, if_neg hy, if_neg hap, ih, filter_cons_of_neg hap]
        -- a later occurrence of the item is not taken either
        have hfil : (pending (insert y seen) rest).filter (apart x) =
            (pending seen rest).filter (apart x) := by
          rw [Finset.insert_eq, union_comm, pending_union, List.filter_filter]
          refine filter_congr fun z _ => ?_
          by_cases hz : z = y
          · simp [hz, hap]
          · simp [hz]
        rw [hfil]

theorem foldl_lead (hord : order = pre ++ rest) (hpre : ∀ x ∈ pre, x ∈ seen) (gs : List (List ι)) :
    (rest.foldl (lead apart order) (gs, seen)).1 = gs ++ split apart (pending seen rest) := by
  induction rest generalizing pre seen gs with
  | nil => simp [pending, split]
  | cons x rest ih =>
    have hord' : order = (pre ++ [x]) ++ rest := by simp [hord]
    rw [foldl_cons]
    by_cases hx : x ∈ seen
    · rw [pending_of_mem hx, lead, if_pos hx]
      refine ih hord' (fun y hy => ?_) gs
      obtain hy | hy := mem_append.mp hy
      · exact hpre y hy
      · exact List.mem_singleton.mp hy ▸ hx
    · have hpre' : ∀ y ∈ pre ++ [x], y ∈ insert x seen := by
        intro y hy
        obtain hy | hy := mem_append.mp hy
        · exact mem_insert_of_mem (hpre y hy)
        · exact List.mem_singleton.mp hy ▸ Finset.mem_insert_self x seen
      have hpnd : pending (insert x seen) order = pending (insert x seen) rest := by
        rw [hord', pending_append hpre']
      rw [pending_of_notMem hx, split, lead, if_neg hx, foldl_join, hpnd,
        ih hord' fun y hy => mem_union_left _ (hpre' y hy), pending_union]
      have hfil : (pending (insert x seen) rest).filter
          (· ∉ ((pending (insert x seen) rest).filter (apart x)).toFinset) =
            (pending (insert x seen) rest).filter (!apart x ·) := by
        refine filter_congr fun y hy => ?_
        simp [hy]
      rw [hfil]
      simp

theorem groups_eq_split : groups apart order = split apart (pending ∅ order) :=
  foldl_lead rfl (fun _ h => absurd h not_mem_nil) []

end

@[elab_as_elim]
theorem split_induct (apart : ι → ι → Bool) {motive : List ι → Prop} (nil : motive [])
    (cons : ∀ x rest, motive (rest.filter (!apart x ·)) → motive (x :: rest)) (l : List ι) :
    motive l := by
  induction hlen : l.length using Nat.strong_induction_on generalizing l with
  | h n ih =>
    cases l with
    | nil => exact nil
    | cons x rest =>
      refine cons x rest (ih _ ?_ _ rfl)
      rw [← hlen]
      exact Nat.lt_succ_of_le (length_filter_le ..)

section
variable {group : List ι}

theorem flatten_split_perm : (split apart l).flatten.Perm l := by
  induction l using split_induct apart with
  | nil => simp [split]
  | cons x rest ih =>
    rw [split]
    refine List.Perm.cons x ((ih.append_left _).trans ?_)
    exact filter_append_perm (apart x) rest

theorem exists_leader (h : group ∈ split apart l) :
    ∃ leader rest, group = leader :: rest ∧ ∀ x ∈ rest, apart leader x = true := by
  induction l using split_induct apart with
  | nil => simp [split] at h
  | cons x rest ih =>
    rw [split] at h
    obtain rfl | h := mem_cons.mp h
    · exact ⟨x, _, rfl, fun y hy => (mem_filter.mp hy).2⟩
    · exact ih h

theorem mem_of_mem_split (h : group ∈ split apart l) (hx : x ∈ group) : x ∈ l :=
  (flatten_split_perm).mem_iff.mp (mem_flatten.mpr ⟨group, h, hx⟩)

theorem split_congr (h : ∀ a ∈ l, ∀ b ∈ l, apart a b = apart' a b) :
    split apart l = split apart' l := by
  induction l using split_induct apart with
  | nil => simp [split]
  | cons x rest ih =>
    have hx : ∀ y ∈ rest, apart x y = apart' x y := fun y hy =>
      h x mem_cons_self y (mem_cons_of_mem _ hy)
    have hfil : rest.filter (!apart x ·) = rest.filter (!apart' x ·) :=
      filter_congr fun y hy => by rw [hx y hy]
    have hmem : ∀ a ∈ rest.filter (!apart x ·), a ∈ x :: rest := fun a ha =>
      mem_cons_of_mem _ (mem_of_mem_filter ha)
    rw [split, split, filter_congr hx, ← hfil, ih fun a ha b hb => h a (hmem a ha) b (hmem b hb)]

theorem split_map :
    split apart (l.map f) = (split (fun a b => apart (f a) (f b)) l).map (List.map f) := by
  induction l using split_induct (fun a b => apart (f a) (f b)) with
  | nil => simp [split]
  | cons x rest ih =>
    rw [List.map_cons, split, split, List.filter_map, List.filter_map]
    exact congrArg _ ih

end

section
variable {lt : ι → ι → Prop} {s : ι}

def Ascending (lt : ι → ι → Prop) (l : List ι) : Prop := l.Pairwise fun a b => ¬lt b a

theorem Ascending.exists_least (htra : ∀ a b c, lt a b → lt b c → lt a c)
    (hirr : ∀ a, ¬lt a a) (h : Ascending lt base) (hx : x ∈ base) :
    ∃ s ∈ base, (s = x ∨ lt s x) ∧ ∀ b ∈ base, ¬lt b s := by
  induction base with
  | nil => cases hx
  | cons a rest ih =>
    obtain ⟨ha, hrest⟩ := pairwise_cons.mp h
    by_cases hax : a = x ∨ lt a x
    · refine ⟨a, mem_cons_self, hax, fun b hb => ?_⟩
      obtain rfl | hb := mem_cons.mp hb
      · exact hirr b
      · exact ha b hb
    · have hx' : x ∈ rest := (mem_cons.mp hx).resolve_left fun h => hax (.inl h.symm)
      obtain ⟨s, hs, hsx, hlea⟩ := ih hrest hx'
      refine ⟨s, mem_cons_of_mem _ hs, hsx, fun b hb => ?_⟩
      obtain rfl | hb := mem_cons.mp hb
      · intro hbs
        obtain rfl | hsx := hsx
        · exact hax (.inr hbs)
        · exact hax (.inr (htra _ _ _ hbs hsx))
      · exact hlea b hb

variable [DecidableEq ι] (htra : ∀ a b c, lt a b → lt b c → lt a c)
  (hap : ∀ a b, apart a b = true ↔ a ≠ b ∧ ¬lt a b ∧ ¬lt b a)
include htra hap

theorem split_least_first (hs : s ∈ base) (hnd : base.Nodup) (hbase : Ascending lt base)
    (hlea : ∀ b ∈ base, ¬lt b s)
    (hperm : above.Perm ((base.erase s).filter (!apart s ·))) (habv : Ascending lt above) :
    let order := s :: ((base.erase s).filter (apart s) ++ above)
    order.Perm base ∧ Ascending lt order ∧
      split apart order = (s :: (base.erase s).filter (apart s)) :: split apart above := by
  intro order
  have hmem : ∀ b ∈ base.erase s, b ≠ s ∧ ¬lt b s := by
    intro b hb
    have hb' := hnd.mem_erase_iff.mp hb
    exact ⟨hb'.1, hlea b hb'.2⟩
  have hlt : ∀ b ∈ above, lt s b ∧ apart s b = false := by
    intro b hb
    obtain ⟨hb, hnot⟩ := mem_filter.mp (hperm.mem_iff.mp hb)
    have hnot : ¬apart s b = true := by simpa using hnot
    refine ⟨?_, by simpa using hnot⟩
    by_contra hsb
    exact hnot ((hap s b).mpr ⟨(hmem b hb).1.symm, hsb, (hmem b hb).2⟩)
  have hera : Ascending lt (base.erase s) := hbase.sublist erase_sublist
  refine ⟨?_, ?_, ?_⟩
  · refine List.Perm.trans ?_ (perm_cons_erase hs).symm
    refine List.Perm.cons s ((hperm.append_left _).trans ?_)
    exact filter_append_perm (apart s) (base.erase s)
  · refine pairwise_cons.mpr ⟨fun b hb => ?_, pairwise_append.mpr
      ⟨hera.sublist filter_sublist, habv, fun n hn a ha han => ?_⟩⟩
    · obtain hb | hb := mem_append.mp hb
      · exact (hmem b (mem_of_mem_filter hb)).2
      · exact (hmem b (mem_of_mem_filter (hperm.mem_iff.mp hb))).2
    · -- what is above an item above `s` is above `s`
      have hsn := htra _ _ _ (hlt a ha).1 han
      exact ((hap s n).mp (mem_filter.mp hn).2).2.1 hsn
  · have hap' : above.filter (apart s) = [] :=
      filter_eq_nil_iff.mpr fun b hb => by simp [(hlt b hb).2]
    have hself : above.filter (!apart s ·) = above :=
      filter_eq_self.mpr fun b hb => by simp [(hlt b hb).2]
    rw [split, filter_append, filter_append, hap', hself]
    simp

/-- If being apart is not transitive, some ascending order puts related elements in one group. -/
theorem exists_related_in_group (hirr : ∀ a, ¬lt a a) (hnd : base.Nodup)
    (hbase : Ascending lt base) (hx : x ∈ base) (hy : y ∈ base) (hz : z ∈ base)
    (hxy : apart x y = true) (hxz : apart x z = true) (hyz : lt y z) :
    ∃ order, order.Perm base ∧ Ascending lt order ∧
      ∃ group ∈ split apart order, ∃ a ∈ group, ∃ b ∈ group, lt a b := by
  induction hlen : base.length using Nat.strong_induction_on generalizing base with
  | h n ih =>
    -- a least item that is apart from two related ones takes both
    have hfou : ∀ s ∈ base, (∀ b ∈ base, ¬lt b s) → ∀ a ∈ base, ∀ b ∈ base,
        apart s a = true → apart s b = true → lt a b →
        ∃ order, order.Perm base ∧ Ascending lt order ∧
          ∃ group ∈ split apart order, ∃ a ∈ group, ∃ b ∈ group, lt a b := by
      intro s hs hlea a ha b hb hsa hsb hab
      have hmem : ∀ c ∈ base, apart s c = true → c ∈ (base.erase s).filter (apart s) := by
        intro c hc hsc
        have hne := ((hap s c).mp hsc).1
        exact mem_filter.mpr ⟨(mem_erase_of_ne hne.symm).mpr hc, hsc⟩
      obtain ⟨hperm, hasc, hspl⟩ := split_least_first htra hap hs hnd hbase hlea
        (List.Perm.refl _) ((hbase.sublist erase_sublist).sublist filter_sublist)
      refine ⟨_, hperm, hasc, _, hspl ▸ List.mem_cons_self, a, ?_, b, ?_, hab⟩
      · exact mem_cons_of_mem _ (hmem a ha hsa)
      · exact mem_cons_of_mem _ (hmem b hb hsb)
    obtain ⟨s, hs, hsx, hsle⟩ := hbase.exists_least htra hirr hx
    obtain ⟨t, ht, hty, htle⟩ := hbase.exists_least htra hirr hy
    have hxy' := (hap x y).mp hxy
    obtain rfl | hsx := hsx
    · exact hfou s hs hsle y hy z hz hxy hxz hyz
    by_cases htx : lt t x
    · -- all three items are above `t`, and the items above it can be listed in a bad order
      have hty : lt t y := hty.resolve_left (by rintro rfl; exact hxy'.2.2 htx)
      have hmem : ∀ c ∈ base, lt t c → c ∈ (base.erase t).filter (!apart t ·) := by
        intro c hc htc
        have hne : c ≠ t := by
          rintro rfl
          exact hirr c htc
        refine mem_filter.mpr ⟨(mem_erase_of_ne hne).mpr hc, ?_⟩
        have hnot : ¬apart t c = true := fun h => ((hap t c).mp h).2.1 htc
        simpa using hnot
      have hlt : ((base.erase t).filter (!apart t ·)).length < n := by
        refine lt_of_le_of_lt (length_filter_le ..) ?_
        rw [← hlen, length_erase_of_mem ht]
        exact Nat.sub_lt (length_pos_of_mem ht) Nat.one_pos
      obtain ⟨above, hperm, hasc, group, hgrp, hrel⟩ := ih _ hlt
        ((hnd.erase t).filter _)
        ((hbase.sublist List.erase_sublist).sublist filter_sublist)
        (hmem x hx htx) (hmem y hy hty) (hmem z hz (htra _ _ _ hty hyz)) rfl
      obtain ⟨hperm', hasc', hspl⟩ :=
        split_least_first htra hap ht hnd hbase htle hperm hasc
      exact ⟨_, hperm', hasc', group, hspl ▸ mem_cons_of_mem _ hgrp, hrel⟩
    · -- `t` is apart from `x` and from the least item below `x`
      have hts : apart t s = true := by
        refine (hap t s).mpr ⟨?_, hsle t ht, htle s hs⟩
        rintro rfl
        exact htx hsx
      have htx' : apart t x = true := by
        refine (hap t x).mpr ⟨?_, htx, htle x hx⟩
        rintro rfl
        exact htle s hs hsx
      exact hfou t ht htle s hs x hx hts htx' hsx

end

end Grouping
