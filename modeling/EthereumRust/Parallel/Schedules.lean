import EthereumRust.Parallel.Scheduler

/-!
# What the schedules guarantee

The optimistic schedule respects the dependencies, and the multi-version schedule the shared
addresses: both cut a list of all transactions, in an order that fits, into batches. The pessimistic
schedule keeps conflicting transactions apart, but a transaction that conflicts with the first
members of two groups is scheduled once with each of them.
-/

namespace EthereumRust.Parallel

open Rust Batches Greedy List

theorem Schedule.batches_addBatch (sched : Schedule) (batch : List Nat) :
    (sched.addBatch batch).batches = close sched.batches batch := by
  rw [addBatch, close]
  split_ifs <;> rfl

theorem Schedule.batches_last (sched : Schedule) (batch : List Nat) :
    (if batch.isEmpty then sched else sched.addBatch batch).batches =
      close sched.batches batch := by
  rw [apply_ite Schedule.batches, batches_addBatch, close]
  split_ifs <;> rfl

namespace TransactionScheduler

variable {s : TransactionScheduler}

def joinsOptimistic (self : TransactionScheduler) (depGraph : DependencyGraph)
    (done : List (List Nat)) (current : List Nat) (i : Nat) : Bool :=
  decide (∀ dep ∈ depGraph.getDependencies i, dep ∈ done.flatten) &&
    current.length < self.maxParallel

theorem batches_optimisticLoop (sched : Schedule) (cur : List Nat) (processed : Finset Nat)
    (sorted : List Nat) (h : processed = sched.batches.flatten.toFinset) :
    (s.optimisticLoop dg sched cur processed sorted).batches =
      cut (s.joinsOptimistic dg) sched.batches cur sorted := by
  induction sorted generalizing sched cur processed with
  | nil => exact sched.batches_last cur
  | cons i sorted ih =>
    have hpro : ∀ dep, dep ∈ processed ↔ dep ∈ sched.batches.flatten := by
      rw [h]
      exact fun dep => mem_toFinset
    rw [optimisticLoop, cut, joinsOptimistic]
    simp only [hpro]
    split_ifs with hjn hemp
    · exact ih sched _ processed h
    · rw [ih sched _ processed h, close, if_pos hemp]
    · have hbats := sched.batches_addBatch cur
      have hclo : processed ∪ cur.toFinset =
          (sched.addBatch cur).batches.flatten.toFinset := by
        rw [hbats, flatten_close, toFinset_append, h]
      rw [ih _ _ _ hclo, hbats]

def joinsMvcc (self : TransactionScheduler) (versionMap : VersionMap) (_ : List (List Nat))
    (current : List Nat) (i : Nat) : Bool :=
  (current.all fun j => !hasVersionConflict i j versionMap) && current.length < self.maxParallel

theorem batches_mvccLoop (versionMap : VersionMap) (sched : Schedule) (scheduled : Finset Nat)
    (cur rest : List Nat) (hrest : rest.Nodup) (h : ∀ i ∈ rest, i ∉ scheduled) :
    (s.mvccLoop versionMap sched scheduled cur rest).batches =
      cut (s.joinsMvcc versionMap) sched.batches cur rest := by
  induction rest generalizing sched scheduled cur with
  | nil => exact sched.batches_last cur
  | cons i rest ih =>
    obtain ⟨hi, hrest⟩ := nodup_cons.mp hrest
    have hnext : ∀ k ∈ rest, k ∉ insert i scheduled := by
      intro k hk hmem
      rcases Finset.mem_insert.mp hmem with rfl | hmem
      · exact hi hk
      · exact h k (.tail _ hk) hmem
    rw [mvccLoop, if_neg (h i mem_cons_self), cut, joinsMvcc]
    dsimp only
    split_ifs with hjn hemp
    · exact ih sched _ _ hrest hnext
    · rw [ih sched _ _ hrest hnext, close, if_pos hemp]
    · rw [ih _ _ _ hrest hnext, sched.batches_addBatch]

theorem not_mem_of_optimistic (H : dg.Built n) (hord : dg.graph.TopologicalOrder order)
    (hbat : batch ∈ cut (s.joinsOptimistic dg) [] [] order) (hij : i ∈ dg.getDependencies j)
    (hi : i ∈ batch) : j ∉ batch := by
  intro hj
  obtain ⟨front, back, hbs, hgr⟩ := exists_grown hbat
  obtain ⟨pre, post, hspl⟩ := append_of_mem hj
  have hflat : (cut (s.joinsOptimistic dg) [] [] order).flatten = order :=
    flatten_cut
  rw [hbs, flatten_append, flatten_cons] at hflat
  have hedge := (H.edges i j).mpr hij
  rw [hspl] at hi
  rcases mem_append.mp hi with hi | hi
  · -- it joined a batch while one of its dependencies was in it
    have hpre : pre ++ [j] <+: batch := ⟨post, by rw [hspl, append_assoc, singleton_append]⟩
    have hjn := hgr pre j hpre (ne_nil_of_mem hi)
    rw [joinsOptimistic, Bool.and_eq_true, decide_eq_true_eq] at hjn
    have hnd : (front.flatten ++ (batch ++ back.flatten)).Nodup := by
      rw [hflat]
      exact hord.perm.nodup_iff.mpr nodup_range
    refine disjoint_of_nodup_append hnd (hjn.1 i hij) (mem_append_left _ ?_)
    rw [hspl]
    exact mem_append_left _ hi
  · rcases mem_cons.mp hi with rfl | hi
    · exact lt_irrefl i (H.lt i i hij).1
    · have hfwd := hord.forward
      rw [← hflat, hspl] at hfwd
      have hbat := (pairwise_append.mp (pairwise_append.mp hfwd).2.1).1
      exact (pairwise_cons.mp (pairwise_append.mp hbat).2.1).1 i hi hedge

/-- Over the graph that is built for the transactions, the optimistic schedule never fails. Its
batches partition the transactions, are not larger than allowed, and respect the dependencies. -/
theorem scheduleOptimistic_correct [Toposort] [LawfulToposort] (s : TransactionScheduler)
    (txs : List Transaction) (detector : ConflictDetector) :
    ∃ dg detector' sched,
      buildDependencyGraph txs detector = .ok dg detector' ∧
      s.scheduleOptimistic dg txs = .ok (.ok sched) ∧
      sched.batches.flatten.Perm (range txs.length) ∧
      (∀ batch ∈ sched.batches, batch.length ≤ max 1 s.maxParallel) ∧
      ∀ i j, i ∈ dg.getDependencies j → Before sched.batches i j := by
  obtain ⟨dg, detector', hbld, H, -⟩ := exists_dependencyGraph txs detector
  obtain ⟨hwf, hacy⟩ := H.acyclic
  obtain ⟨order, htop, hord⟩ := LawfulToposort.toposort_of_acyclic dg.graph hwf hacy
  have hperm := hord.perm
  rw [H.weights, length_range] at hperm
  have hwei : order.mapM (weight dg.graph) = .ok order := by
    have hok := Checked.mapM_eq_ok (f := weight dg.graph) (g := id) (l := order) fun _ hnode => by
      rw [weight, H.weights, getElem?_range (mem_range.mp (hperm.mem_iff.mp hnode))]
      rfl
    rw [hok, map_id]
  let bs := cut (s.joinsOptimistic dg) [] [] order
  have hbats : (s.optimisticLoop dg .new [] ∅ order).batches = bs :=
    batches_optimisticLoop .new [] ∅ order rfl
  have hflat : bs.flatten = order := flatten_cut
  refine ⟨dg, detector', s.optimisticLoop dg .new [] ∅ order, hbld, ?_, ?_, ?_, ?_⟩
  · rw [scheduleOptimistic, htop]
    dsimp only
    rw [hwei]
    rfl
  · rw [hbats, hflat]
    exact hperm
  · intro batch hbat
    rw [hbats] at hbat
    refine length_le_of_mem_cut (fun front pre i hjn => ?_) hbat
    rw [joinsOptimistic, Bool.and_eq_true, decide_eq_true_eq, decide_eq_true_eq] at hjn
    exact hjn.2
  · intro i j hij
    obtain ⟨hlt, hj⟩ := H.lt i j hij
    have hmem : ∀ k < txs.length, k ∈ bs.flatten := fun k hk => by
      rw [hflat]
      exact hperm.mem_iff.mpr (mem_range.mpr hk)
    rw [hbats]
    refine before_of_pairwise (hflat ▸ hord.forward)
      (fun hfwd => hfwd ((H.edges i j).mpr hij))
      (fun batch hbat hi => not_mem_of_optimistic H hord hbat hij hi)
      (hmem i (hlt.trans hj)) (hmem j hj)

def transfer (hash sender recipient nonce : Nat) : Transaction where
  hash := H256.ofU256 (.ofNat 256 hash)
  fromAddress := addressFromU256 (.ofNat 256 sender)
  toAddress := some (addressFromU256 (.ofNat 256 recipient))
  nonce := .ofNat 256 nonce

open Ancestors in
theorem scheduleOptimistic_correct_sample :
    ∃ dg detector' sched,
      buildDependencyGraph [transfer 1 1 3 0, transfer 2 1 4 1] .new = .ok dg detector' ∧
      scheduleOptimistic ⟨.optimisticConcurrency, 4⟩ dg [transfer 1 1 3 0, transfer 2 1 4 1] =
        .ok (.ok sched) ∧
      Before sched.batches 0 1 := by
  obtain ⟨dg, detector', sched, hbld, hsch, -, -, hbef⟩ :=
    scheduleOptimistic_correct ⟨.optimisticConcurrency, 4⟩ [transfer 1 1 3 0, transfer 2 1 4 1] .new
  have hdeps := ((buildDependencyGraph_sat).of_ok hbld).2 ConflictDetector.trusting_new
  have hrel : RelatedAt [transfer 1 1 3 0, transfer 2 1 4 1] 0 1 := ⟨_, rfl, _, rfl, .inl rfl⟩
  exact ⟨dg, detector', sched, hbld, hsch, hbef 0 1 ((hdeps.2 0 1).mpr ⟨Nat.zero_lt_one, hrel⟩)⟩

variable {versions : VersionMap}

theorem mem_push : k ∈ ((versions.push addr i).lookup other).getD [] ↔
      k ∈ (versions.lookup other).getD [] ∨ other = addr ∧ k = i := by
  rw [VersionMap.push, HashMap.getD_insert]
  split_ifs with h
  · rw [h, mem_append, mem_singleton, and_iff_right rfl]
  · rw [or_iff_left fun hoth => h hoth.1]

theorem mem_foldl_push {addresses : List Address} :
    k ∈ ((addresses.foldl (fun versions addr => versions.push addr i)
        versions).lookup other).getD [] ↔
      k ∈ (versions.lookup other).getD [] ∨ other ∈ addresses ∧ k = i := by
  induction addresses generalizing versions with
  | nil => exact (or_iff_left fun h => not_mem_nil h.1).symm
  | cons addr addresses ih =>
    rw [foldl_cons, ih, mem_push, mem_cons, or_assoc, ← or_and_right]

theorem mem_foldl_versions {txs : List (Transaction × Nat)} :
    k ∈ ((txs.foldl (fun versions tx => (extractAddresses tx.1).foldl
        (fun versions addr => versions.push addr tx.2) versions)
        versions).lookup other).getD [] ↔
      k ∈ (versions.lookup other).getD [] ∨
        ∃ tx ∈ txs, other ∈ extractAddresses tx.1 ∧ k = tx.2 := by
  induction txs generalizing versions with
  | nil => exact (or_iff_left fun ⟨_, h, _⟩ => not_mem_nil h).symm
  | cons tx txs ih => rw [foldl_cons, ih, mem_foldl_push, or_assoc, exists_mem_cons_iff]

theorem mem_versionMap :
    k ∈ ((versionMap txs).lookup addr).getD [] ↔ ∃ tx ∈ txs[k]?, addr ∈ extractAddresses tx := by
  rw [versionMap, mem_foldl_versions, Finmap.lookup_empty, Option.getD_none,
    or_iff_right not_mem_nil]
  constructor
  · rintro ⟨⟨tx, i⟩, hmem, haddr, rfl⟩
    exact ⟨tx, mem_zipIdx_iff_getElem?.mp hmem, haddr⟩
  · rintro ⟨tx, htx, haddr⟩
    exact ⟨(tx, k), mem_zipIdx_iff_getElem?.mpr htx, haddr, rfl⟩

/-- The two transactions have an address in common. -/
def ShareAddress (transactions : List Transaction) (i j : Nat) : Prop :=
  ∃ tx1 ∈ transactions[i]?, ∃ tx2 ∈ transactions[j]?,
    ∃ address, address ∈ extractAddresses tx1 ∧ address ∈ extractAddresses tx2

theorem ShareAddress.symm (h : ShareAddress txs i j) : ShareAddress txs j i := by
  obtain ⟨tx1, h1, tx2, h2, addr, ha1, ha2⟩ := h
  exact ⟨tx2, h2, tx1, h1, addr, ha2, ha1⟩

theorem hasVersionConflict_iff :
    hasVersionConflict i j (versionMap transactions) = true ↔ ShareAddress transactions i j := by
  rw [hasVersionConflict, decide_eq_true_eq]
  constructor
  · rintro ⟨addr, -, txs, htxs, hi, hj⟩
    have hget : ((versionMap transactions).lookup addr).getD [] = txs := by
      rw [Option.mem_def.mp htxs, Option.getD_some]
    rw [← hget, mem_versionMap] at hi hj
    obtain ⟨tx1, h1, ha1⟩ := hi
    obtain ⟨tx2, h2, ha2⟩ := hj
    exact ⟨tx1, h1, tx2, h2, addr, ha1, ha2⟩
  · rintro ⟨tx1, h1, tx2, h2, addr, ha1, ha2⟩
    have hi := mem_versionMap.mpr ⟨tx1, h1, ha1⟩
    have hj := mem_versionMap.mpr ⟨tx2, h2, ha2⟩
    cases hlookup : (versionMap transactions).lookup addr with
    | none =>
      rw [hlookup] at hi
      exact absurd hi not_mem_nil
    | some txs =>
      rw [hlookup] at hi hj
      have hkey := Finmap.mem_keys.mpr (Finmap.mem_of_lookup_eq_some hlookup)
      exact ⟨addr, hkey, txs, hlookup, hi, hj⟩

theorem not_share_of_mvcc (hbat : batch ∈ cut (s.joinsMvcc (versionMap txs)) [] [] xs)
    (hi : i ∈ batch) (hj : j ∈ batch) (hij : i ≠ j) : ¬ShareAddress txs i j := by
  obtain ⟨front, -, -, hgr⟩ := exists_grown hbat
  have hpai : batch.Pairwise fun y x => ¬ShareAddress txs y x := by
    refine hgr.pairwise fun pre x hjn y hy hsha => ?_
    rw [joinsMvcc, Bool.and_eq_true, all_eq_true] at hjn
    have hcfl := hjn.1 y hy
    rw [hasVersionConflict_iff.mpr hsha.symm] at hcfl
    cases hcfl
  have : Std.Symm fun y x => ¬ShareAddress txs y x := ⟨fun _ _ h hsha => h hsha.symm⟩
  exact hpai.forall hi hj hij

/-- The batches of the multi-version schedule partition the transactions. Transactions that share an
address are in different batches, in the order of the list. -/
theorem scheduleMvcc_correct (s : TransactionScheduler) (dg : DependencyGraph)
    (txs : List Transaction) :
    ∃ sched, s.scheduleMvcc dg txs = .ok (.ok sched) ∧
      sched.batches.flatten.Perm (List.range txs.length) ∧
      (∀ batch ∈ sched.batches, ∀ i ∈ batch, ∀ j ∈ batch, i ≠ j →
        ¬ShareAddress txs i j) ∧
      ∀ i j, i < j → ShareAddress txs i j → Before sched.batches i j := by
  let indices := List.range txs.length
  let bs := cut (s.joinsMvcc (versionMap txs)) [] [] indices
  have hbats : (s.mvccLoop (versionMap txs) .new ∅ [] indices).batches = bs :=
    batches_mvccLoop _ .new ∅ [] indices nodup_range fun i _ => Finset.notMem_empty i
  have hflat : bs.flatten = indices := flatten_cut
  have hap : ∀ batch ∈ bs, ∀ i ∈ batch, ∀ j ∈ batch, i ≠ j → ¬ShareAddress txs i j :=
    fun batch hbat i hi j hj hij => not_share_of_mvcc hbat hi hj hij
  refine ⟨_, rfl, ?_, ?_, fun i j hij hsha => ?_⟩
  · rw [hbats, hflat]
  · rw [hbats]
    exact hap
  · have hmem : ∀ k tx, txs[k]? = some tx → k ∈ bs.flatten := fun k tx htx => by
      rw [hflat]
      exact mem_range.mpr (List.getElem?_eq_some_iff.mp htx).1
    obtain ⟨tx1, h1, tx2, h2, -⟩ := id hsha
    rw [hbats]
    refine before_of_pairwise (R := (· < ·)) (hflat ▸ pairwise_lt_range) (Nat.not_lt_of_lt hij)
      (fun batch hbat hi hj => hap batch hbat i hi j hj (ne_of_lt hij) hsha)
      (hmem i tx1 h1) (hmem j tx2 h2)

theorem mayConflict_comm : mayConflict tx1 tx2 = mayConflict tx2 tx1 := by
  rw [mayConflict, mayConflict]
  cases tx1.toAddress <;> cases tx2.toAddress <;> simp only [eq_comm]

theorem conflictAt_comm : conflictAt txs i j = conflictAt txs j i := by
  rw [conflictAt, at2, at2]
  cases txs[i]? <;> cases txs[j]? <;> simp only [mayConflict_comm]

theorem lt_of_conflictAt (h : conflictAt txs i j = true) : i < txs.length ∧ j < txs.length := by
  rw [conflictAt, at2] at h
  split at h
  next tx1 tx2 h1 h2 =>
    exact ⟨(List.getElem?_eq_some_iff.mp h1).1, (List.getElem?_eq_some_iff.mp h2).1⟩
  next => cases h

/-- The schedule of some groups: a batch is a single transaction, or made of transactions that are
alone in their group. -/
structure Grouped (groups : List (List Nat)) (schedule : Schedule) : Prop where
  flatten : schedule.batches.flatten ++ schedule.currentBatch = groups.flatten
  batches : ∀ batch ∈ schedule.batches, (∃ i, batch = [i]) ∨ ∀ i ∈ batch, [i] ∈ groups
  current : ∀ i ∈ schedule.currentBatch, [i] ∈ groups

theorem Grouped.finalize {sched : Schedule} (H : Grouped groups sched) :
    Grouped groups sched.finalizeCurrentBatch ∧ sched.finalizeCurrentBatch.currentBatch = [] := by
  rw [Schedule.finalizeCurrentBatch]
  split_ifs with hemp
  · exact ⟨H, isEmpty_iff.mp hemp⟩
  · refine ⟨⟨?_, ?_, forall_mem_nil _⟩, rfl⟩
    · rw [flatten_append, flatten_singleton, append_nil]
      exact H.flatten
    · exact forall_mem_append.mpr ⟨H.batches, forall_mem_singleton.mpr (.inr H.current)⟩

theorem foldl_addBatch (sched : Schedule) (group : List Nat) :
    group.foldl (fun sched i => sched.addBatch [i]) sched =
      { sched with batches := sched.batches ++ group.map fun i => [i] } := by
  induction group generalizing sched with
  | nil => rw [map_nil, append_nil, foldl_nil]
  | cons i group ih =>
    rw [foldl_cons, ih, map_cons, append_cons]
    rfl

theorem Grouped.scheduleGroup {sched : Schedule} (group : List Nat)
    (H : Grouped groups sched) : Grouped (groups ++ [group]) (scheduleGroup sched group) := by
  have hmono : ∀ i, [i] ∈ groups → [i] ∈ groups ++ [group] := fun i hi => mem_append_left _ hi
  have hbats : ∀ sched, Grouped groups sched → ∀ batch ∈ sched.batches,
      (∃ i, batch = [i]) ∨ ∀ i ∈ batch, [i] ∈ groups ++ [group] := fun sched H batch hbat =>
    (H.batches batch hbat).imp_right fun h i hi => hmono i (h i hi)
  unfold TransactionScheduler.scheduleGroup
  split
  next i =>
    refine ⟨?_, hbats sched H, ?_⟩
    · rw [flatten_append, flatten_singleton, ← H.flatten, append_assoc]
      rfl
    · refine forall_mem_append.mpr ⟨fun j hj => hmono j (H.current j hj), ?_⟩
      exact forall_mem_singleton.mpr (mem_append_right _ (mem_singleton_self _))
  next =>
    obtain ⟨H', hcur⟩ := H.finalize
    have hfla := H'.flatten
    rw [hcur, append_nil] at hfla
    rw [foldl_addBatch]
    refine ⟨?_, ?_, ?_⟩
    · rw [hcur, append_nil, flatten_append, hfla, flatten_append, flatten_singleton]
      exact congrArg _ (flatMap_singleton' group)
    · refine forall_mem_append.mpr ⟨hbats _ H', fun batch hbat => ?_⟩
      obtain ⟨i, -, rfl⟩ := mem_map.mp hbat
      exact .inl ⟨i, rfl⟩
    · rw [hcur]
      exact forall_mem_nil _

theorem grouped_foldl (groups : List (List Nat)) :
    Grouped groups (groups.foldl scheduleGroup .new) := by
  induction groups using reverseRecOn with
  | nil => exact ⟨rfl, forall_mem_nil _, forall_mem_nil _⟩
  | append_singleton groups group ih =>
    rw [foldl_append]
    exact ih.scheduleGroup group

/-- No transaction is drawn into a group before the one of an earlier transaction it conflicts with.
-/
def GroupsOrdered (transactions : List Transaction) : Prop :=
  ∀ i j, i < j → conflictAt transactions i j = true →
    ∀ h' ∈ openers (conflictAt transactions) transactions.length,
      ∀ h ∈ openers (conflictAt transactions) transactions.length, h' < h →
        j ∈ group (conflictAt transactions) transactions.length h' →
          i ∉ group (conflictAt transactions) transactions.length h

/-- The pessimistic schedule keeps conflicting transactions apart. It schedules them in the order of
the list exactly when no transaction is drawn into an earlier group. -/
theorem schedulePessimistic_order_iff (dg : DependencyGraph) (txs : List Transaction) :
    ∃ sched, schedulePessimistic dg txs = .ok (.ok sched) ∧
      (∀ batch ∈ sched.batches, ∀ i ∈ batch, ∀ j ∈ batch, i ≠ j →
        conflictAt txs i j = false) ∧
      ((∀ i j, i < j → conflictAt txs i j = true → Before sched.batches i j) ↔
        GroupsOrdered txs) := by
  obtain ⟨H, hcur⟩ := (grouped_foldl (analyzeConflicts txs)).finalize
  let bs := ((analyzeConflicts txs).foldl scheduleGroup .new).finalizeCurrentBatch.batches
  have hfla : bs.flatten = (collect (conflictAt txs) txs.length).flatten := by
    have h := H.flatten
    rwa [hcur, append_nil] at h
  have hap : ∀ batch ∈ bs, ∀ i ∈ batch, ∀ j ∈ batch, i ≠ j →
      conflictAt txs i j = false := by
    intro batch hbat i hi j hj hij
    rcases H.batches batch hbat with ⟨k, rfl⟩ | hlone
    · exact absurd ((mem_singleton.mp hi).trans (mem_singleton.mp hj).symm) hij
    · obtain ⟨hin, hi⟩ := lone_opener (hlone i hi)
      obtain ⟨hjn, hj⟩ := lone_opener (hlone j hj)
      rcases Nat.lt_or_gt_of_ne hij with hlt | hlt
      · exact hi j hlt hjn
      · rw [conflictAt_comm]
        exact hj i hlt hin
  refine ⟨_, rfl, hap, forall₄_congr fun i j hij hcfl => ?_⟩
  obtain ⟨hi, hj⟩ := lt_of_conflictAt hcfl
  have hsame : ∀ batch ∈ bs, i ∈ batch → j ∉ batch := by
    intro batch hbat hib hjb
    rw [hap batch hbat i hib j hjb (ne_of_lt hij)] at hcfl
    cases hcfl
  rw [before_iff hsame, hfla, and_iff_right (mem_flatten_collect hi),
    and_iff_right (mem_flatten_collect hj)]
  exact pairwise_flatten_collect hij

/-- The third transaction has the sender of the first and the recipient of the second. It is
scheduled with the first before the second, and once more after it. -/
theorem pessimistic_reversed :
    schedulePessimistic .new [transfer 1 1 4 0, transfer 2 2 5 0, transfer 3 1 5 1] =
        .ok (.ok ⟨[[0], [2], [1], [2]], []⟩) ∧
      conflictAt [transfer 1 1 4 0, transfer 2 2 5 0, transfer 3 1 5 1] 1 2 = true ∧
      ¬Before [[0], [2], [1], [2]] 1 2 := by
  refine ⟨by decide +kernel, by decide +kernel, fun H => ?_⟩
  have hlt := H.lt 2 1 [1] [2] rfl rfl (mem_singleton_self 1) (mem_singleton_self 2)
  exact absurd hlt (by decide)

end TransactionScheduler

end EthereumRust.Parallel
