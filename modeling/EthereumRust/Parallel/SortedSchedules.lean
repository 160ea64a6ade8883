import EthereumRust.Parallel.Schedules

/-!
# Schedules by nonce and by hash

`schedule_timestamp` sorts the transactions by nonce and cuts where the nonce changes or a batch is
full. `schedule_deterministic` sorts them by hash and cuts into chunks. The dependency graph is not
looked at.
-/

namespace EthereumRust.Parallel

open Rust Batches List

namespace TransactionScheduler

variable {s : TransactionScheduler}

def nonceAt (transactions : List Transaction) (i : Nat) : Nat :=
  match transactions[i]? with
  | some tx => tx.nonce.toNat
  | none => 0

/-- How many transactions with the same nonce come before this one. -/
def nonceRank (transactions : List Transaction) (i : Nat) : Nat :=
  (List.range transactions.length).countP fun k =>
    nonceAt transactions k = nonceAt transactions i ∧ k < i

theorem batches_timestampLoop (s : TransactionScheduler) (ts : Nat → UInt64) (sched : Schedule)
    (cur : List Nat) (last : UInt64) (indices : List Nat) (hlast : cur.getLast?.all (ts · = last)) :
    (s.timestampLoop sched cur last (indices.map fun i => (i, ts i))).batches =
      cut (joinsRun (fun i => (ts i).toNat) s.maxParallel) sched.batches
        cur indices := by
  induction indices generalizing sched cur last with
  | nil => exact sched.batches_last cur
  | cons i indices ih =>
    have hopen : ([i] : List Nat).getLast?.all (ts · = ts i) := decide_eq_true rfl
    rw [map_cons, timestampLoop, cut]
    rcases eq_nil_or_concat' cur with rfl | ⟨pre, j, rfl⟩
    · -- whatever the tests say, the first tx opens a batch
      have hclo : close sched.batches [] = sched.batches := rfl
      simp only [isEmpty_nil, if_true, nil_append, ite_self, hclo]
      exact ih sched [i] _ hopen
    · rw [getLast?_concat, Option.all_some, decide_eq_true_eq] at hlast
      have hjn :
          joinsRun (fun i => (ts i).toNat) s.maxParallel sched.batches (pre ++ [j]) i =
            true ↔ ¬(last < ts i ∨ s.maxParallel ≤ (pre ++ [j]).length) := by
        rw [joinsRun, getLast?_concat, Option.all_some, Bool.and_eq_true, decide_eq_true_eq,
          decide_eq_true_eq, hlast, not_or, not_le, UInt64.lt_iff_toNat_lt, not_lt]
      by_cases hcut : last < ts i ∨ s.maxParallel ≤ (pre ++ [j]).length
      · have hne : (pre ++ [j]).isEmpty ≠ true := mt isEmpty_iff.mp (concat_ne_nil j pre)
        rw [if_pos hcut, if_neg hne, if_neg (mt hjn.mp (not_not.mpr hcut)), ih _ _ _ hopen,
          sched.batches_addBatch]
      · rw [if_neg hcut, if_pos (hjn.mpr hcut)]
        refine ih sched _ _ ?_
        rw [getLast?_concat, Option.all_some]
        exact decide_eq_true rfl

theorem countP_sorted {key : Nat → Nat} {n i : Nat} (h : sortByKey key (range n) = ys ++ i :: zs) :
    ys.countP p = (range n).countP fun k => p k && Stable key (· < ·) k i := by
  have hsrt : (sortByKey key (range n)).Pairwise (Stable key (· < ·)) :=
    pairwise_sortByKey pairwise_lt_range
  have hasy : ∀ a b, Stable key (· < ·) a b → ¬Stable key (· < ·) b a := fun a b hab =>
    hab.asymm fun _ _ => Nat.lt_asymm
  rw [countP_before hasy hsrt h]
  exact (perm_sortByKey key (range n)).countP_eq _

theorem labelled_timestamp (hm : 0 < s.maxParallel) :
    Labelled (runLabel (nonceAt txs) (nonceRank txs) s.maxParallel)
      (cut (joinsRun (nonceAt txs) s.maxParallel) [] []
        (sortByKey (nonceAt txs) (range txs.length))) := by
  refine labelled_cut hm ((pairwise_sortByKey pairwise_lt_range).imp Stable.le) ?_
  intro ys i zs h
  rw [countP_sorted h, nonceRank]
  refine countP_congr fun k _ => ?_
  rw [Bool.and_eq_true, decide_eq_true_eq, decide_eq_true_eq, decide_eq_true_eq]
  refine and_congr_right fun hkey => ?_
  rw [Stable, hkey, or_iff_right (lt_irrefl _), and_iff_right rfl]

theorem nonceAt_lt (hnons : ∀ tx ∈ txs, tx.nonce.toNat < 2 ^ 64) : nonceAt txs i < 2 ^ 64 := by
  rw [nonceAt]
  split
  next tx htx => exact hnons tx (mem_of_getElem? htx)
  next => exact Nat.two_pow_pos 64

theorem mapM_computeTimestamp (hnons : ∀ tx ∈ txs, tx.nonce.toNat < 2 ^ 64) :
    txs.zipIdx.mapM (fun tx => return (tx.2, ← computeTimestamp tx.1)) =
      (.ok ((range txs.length).map fun i => (i, .ofNat (nonceAt txs i))) :
        Checked (List (Nat × UInt64))) := by
  rw [Checked.mapM_eq_ok (g := fun tx => (tx.2, .ofNat tx.1.nonce.toNat))]
  · refine congrArg _ (ext_getElem ?_ fun i hi _ => ?_)
    · rw [length_map, length_map, length_zipIdx, length_range]
    · rw [length_map, length_zipIdx] at hi
      rw [getElem_map, getElem_map, getElem_zipIdx, getElem_range, nonceAt,
        getElem?_eq_getElem hi, zero_add]
  · intro tx htx
    have hlt := hnons tx.1 (mem_of_getElem? (mem_zipIdx_iff_getElem?.mp htx))
    rw [computeTimestamp, U256.asU64_of_lt hlt]
    rfl

theorem scheduleTimestamp_spec (hm : 0 < s.maxParallel)
    (hnons : ∀ tx ∈ txs, tx.nonce.toNat < 2 ^ 64) :
    ∃ sched, s.scheduleTimestamp dg txs = .ok (.ok sched) ∧
      sched.batches.flatten.Perm (range txs.length) ∧
      Labelled (runLabel (nonceAt txs) (nonceRank txs) s.maxParallel)
        sched.batches := by
  let ts (i : Nat) : UInt64 := .ofNat (nonceAt txs i)
  have hts : (fun i => (ts i).toNat) = nonceAt txs :=
    funext fun i => Nat.mod_eq_of_lt (nonceAt_lt hnons)
  let sorted := sortByKey (nonceAt txs) (range txs.length)
  have hsort : sortByKey (fun entry : Nat × UInt64 => entry.2.toNat)
      ((range txs.length).map fun i => (i, ts i)) =
        sorted.map fun i => (i, ts i) := by
    refine (map_insertionSort _ _ _ _ fun i _ j _ => ?_).symm
    rw [← hts]
  have hbats := s.batches_timestampLoop ts .new [] 0 sorted rfl
  rw [hts] at hbats
  refine ⟨s.timestampLoop .new [] 0 (sorted.map fun i => (i, ts i)), ?_, ?_, ?_⟩
  · rw [scheduleTimestamp, mapM_computeTimestamp hnons]
    change Except.ok (Except.ok (s.timestampLoop .new [] 0 (sortByKey _ _))) = _
    rw [hsort]
  · rw [hbats]
    change (cut _ [] [] sorted).flatten.Perm _
    rw [flatten_cut]
    exact perm_sortByKey ..
  · rw [hbats]
    exact labelled_timestamp hm

theorem nonces_of_scheduleTimestamp (h : s.scheduleTimestamp dg txs = .ok res) :
    ∀ tx ∈ txs, tx.nonce.toNat < 2 ^ 64 := by
  intro tx htx
  obtain ⟨timestamps, hmap, -⟩ := h.of_bind
  obtain ⟨i, hi⟩ := getElem?_of_mem htx
  obtain ⟨entry, hent⟩ := Checked.of_mapM_eq_ok hmap (tx, i) (mem_zipIdx_iff_getElem?.mpr hi)
  obtain ⟨ts, hts, -⟩ := hent.of_bind
  by_contra hlar
  rw [computeTimestamp, U256.asU64_of_le (Nat.le_of_not_lt hlar)] at hts
  cases hts

def hashRank (transactions : List Transaction) (i : Nat) : Nat :=
  (List.range transactions.length).countP fun k => Stable (hashKey transactions) (· < ·) k i

theorem foldl_addBatch_of_ne_nil (sched : Schedule) (h : ∀ batch ∈ batches, batch ≠ []) :
    (batches.foldl Schedule.addBatch sched).batches = sched.batches ++ batches := by
  induction batches generalizing sched with
  | nil => exact (append_nil _).symm
  | cons batch batches ih =>
    obtain ⟨hbat, hbats⟩ := forall_mem_cons.mp h
    rw [foldl_cons, ih _ hbats, sched.batches_addBatch, close_of_ne_nil hbat,
      append_assoc, singleton_append]

theorem scheduleDeterministic_spec (hm : 0 < s.maxParallel) :
    ∃ sched, s.scheduleDeterministic dg txs = .ok (.ok sched) ∧
      sched.batches.flatten.Perm (range txs.length) ∧
      Labelled (runLabel (fun _ => 0) (hashRank txs) s.maxParallel)
        sched.batches := by
  let sorted := sortByKey (hashKey txs) (range txs.length)
  let joins (_ : List (List Nat)) (chunk : List Nat) (_ : Nat) : Bool :=
    chunk.length < s.maxParallel
  have hjn : joins = joinsRun (fun _ => 0) s.maxParallel := by
    funext front chunk i
    have hall : chunk.getLast?.all (fun _ => decide ((0 : Nat) ≤ 0)) = true := by
      cases chunk.getLast? <;> rfl
    rw [joinsRun, hall, Bool.true_and]
  have hchu : chunks s.maxParallel sorted = .ok (cut joins [] [] sorted) :=
    if_neg (ne_of_gt hm)
  have hbats : ((cut joins [] [] sorted).foldl Schedule.addBatch .new).batches =
      cut joins [] [] sorted :=
    foldl_addBatch_of_ne_nil .new fun batch hbat => ne_nil_of_mem_cut hbat
  refine ⟨(cut joins [] [] sorted).foldl Schedule.addBatch .new, ?_, ?_, ?_⟩
  · rw [scheduleDeterministic, hchu]
    rfl
  · rw [hbats, flatten_cut]
    exact perm_sortByKey ..
  · rw [hbats, hjn]
    refine labelled_cut hm (pairwise_of_forall_mem_list fun _ _ _ _ => le_rfl) ?_
    intro ys i zs h
    rw [countP_sorted h]
    rfl

/-- A transaction comes before one that depends on it in the schedule by nonces exactly when its
nonce is smaller, or the nonces are equal and a batch of this nonce is full between them; and in the
schedule by hashes exactly when there is the end of a chunk between them. -/
theorem respects_dependencies_iff (s : TransactionScheduler) (hm : 1 ≤ s.maxParallel)
    (txs : List Transaction) {detector detector' : ConflictDetector} {dg : DependencyGraph}
    (hbld : buildDependencyGraph txs detector = .ok dg detector') :
    ((∃ sched, s.scheduleTimestamp dg txs = .ok (.ok sched)) ↔
      ∀ tx ∈ txs, tx.nonce.toNat < 2 ^ 64) ∧
    (∀ sched, s.scheduleTimestamp dg txs = .ok (.ok sched) →
      ((∀ i j, i ∈ dg.getDependencies j → Before sched.batches i j) ↔
        ∀ i j, i ∈ dg.getDependencies j →
          nonceAt txs i < nonceAt txs j ∨
          nonceAt txs i = nonceAt txs j ∧
            nonceRank txs i / s.maxParallel <
              nonceRank txs j / s.maxParallel)) ∧
    ∃ sched, s.scheduleDeterministic dg txs = .ok (.ok sched) ∧
      ((∀ i j, i ∈ dg.getDependencies j → Before sched.batches i j) ↔
        ∀ i j, i ∈ dg.getDependencies j →
          hashRank txs i / s.maxParallel <
            hashRank txs j / s.maxParallel) := by
  have H := ((buildDependencyGraph_sat).of_ok hbld).1
  have hmem : ∀ {bs : List (List Nat)} {i j : Nat},
      bs.flatten.Perm (range txs.length) → i ∈ dg.getDependencies j →
      i ∈ bs.flatten ∧ j ∈ bs.flatten := by
    intro bs i j hperm hij
    obtain ⟨hlt, hj⟩ := H.lt i j hij
    exact ⟨hperm.mem_iff.mpr (mem_range.mpr (hlt.trans hj)), hperm.mem_iff.mpr (mem_range.mpr hj)⟩
  refine ⟨⟨?_, ?_⟩, ?_, ?_⟩
  · rintro ⟨sched, hsch⟩
    exact nonces_of_scheduleTimestamp hsch
  · intro hnons
    obtain ⟨sched, hsch, -⟩ := scheduleTimestamp_spec hm hnons
    exact ⟨sched, hsch⟩
  · intro sched hsch
    obtain ⟨sched', hsch', hperm, hlab⟩ :=
      scheduleTimestamp_spec hm (nonces_of_scheduleTimestamp hsch)
    cases hsch.symm.trans hsch'
    refine forall₃_congr fun i j hij => ?_
    obtain ⟨hi, hj⟩ := hmem hperm hij
    rw [hlab.before_iff_lt hi hj, runLabel_lt]
  · obtain ⟨sched, hsch, hperm, hlab⟩ :=
      scheduleDeterministic_spec hm
    refine ⟨sched, hsch, forall₃_congr fun i j hij => ?_⟩
    obtain ⟨hi, hj⟩ := hmem hperm hij
    rw [hlab.before_iff_lt hi hj, runLabel_lt, or_iff_right (lt_irrefl 0), and_iff_right rfl]

theorem respects_dependencies_sample :
    ∃ dg detector' sched,
      buildDependencyGraph [transfer 1 1 3 0, transfer 2 1 4 1] .new = .ok dg detector' ∧
      scheduleTimestamp ⟨.timestampOrdering, 4⟩ dg [transfer 1 1 3 0, transfer 2 1 4 1] =
        .ok (.ok sched) := by
  obtain ⟨dg, detector', hbld, -⟩ :=
    exists_dependencyGraph [transfer 1 1 3 0, transfer 2 1 4 1] .new
  have hiff := respects_dependencies_iff ⟨.timestampOrdering, 4⟩ (by decide)
    [transfer 1 1 3 0, transfer 2 1 4 1] hbld
  obtain ⟨sched, hsch⟩ := hiff.1.mpr (by decide +kernel)
  exact ⟨dg, detector', sched, hbld, hsch⟩

/-- The second transaction has the recipient of the first, a smaller nonce and a smaller hash. It
depends on the first and is scheduled before it. -/
theorem dependency_reversed :
    ∃ dg detector',
      buildDependencyGraph [transfer 2 1 3 5, transfer 1 2 3 0] .new = .ok dg detector' ∧
      0 ∈ dg.getDependencies 1 ∧
      scheduleTimestamp ⟨.timestampOrdering, 1⟩ dg [transfer 2 1 3 5, transfer 1 2 3 0] =
        .ok (.ok ⟨[[1], [0]], []⟩) ∧
      scheduleDeterministic ⟨.deterministic, 1⟩ dg [transfer 2 1 3 5, transfer 1 2 3 0] =
        .ok (.ok ⟨[[1], [0]], []⟩) ∧
      ¬Before [[1], [0]] 0 1 := by
  obtain ⟨dg, detector', hbld, -, hdeps⟩ :=
    exists_dependencyGraph [transfer 2 1 3 5, transfer 1 2 3 0] .new
  have hrel : RelatedAt [transfer 2 1 3 5, transfer 1 2 3 0] 0 1 :=
    ⟨_, rfl, _, rfl, .inr ⟨_, rfl, rfl⟩⟩
  have hts : scheduleTimestamp ⟨.timestampOrdering, 1⟩ .new
      [transfer 2 1 3 5, transfer 1 2 3 0] = .ok (.ok ⟨[[1], [0]], []⟩) := by decide +kernel
  have hdet : scheduleDeterministic ⟨.deterministic, 1⟩ .new
      [transfer 2 1 3 5, transfer 1 2 3 0] = .ok (.ok ⟨[[1], [0]], []⟩) := by decide +kernel
  refine ⟨dg, detector', hbld, ?_, hts, hdet, fun H => ?_⟩
  · exact ((hdeps ConflictDetector.trusting_new).2 0 1).mpr ⟨Nat.zero_lt_one, hrel⟩
  · have hlt := H.lt 1 0 [0] [1] rfl rfl (mem_singleton_self 0) (mem_singleton_self 1)
    exact absurd hlt (by decide)

end TransactionScheduler

end EthereumRust.Parallel
