import EthereumRust.Filter.LogFilter
import EthereumRust.Lib.Appends
import EthereumRust.Lib.History

/-!
# The queue of a log filter (`crates/filter`: `log_filter.rs`, `lib.rs`)

Logs get into the queue of a filter in two ways: `notify_new_logs` is told about them, and
`poll_for_changes` reads them from the blocks since its last run. `get_changes` empties the queue. A
poll that fails keeps what it has queued so far, but will start again from the same block.
-/

namespace EthereumRust.Filter

open Rust EthereumRust.Core Appends List

structure Occurrence where
  block : Nat
  txIndex : Nat
  logIndex : Nat
  deriving DecidableEq

/-- A log with the occurrence that it is a copy of. The source has no such field, and nothing in
the filter looks at it. -/
structure QueuedLog where
  log : Log
  occurrence : Occurrence
  deriving DecidableEq

structure LogQueue where
  pendingLogs : List QueuedLog
  lastPollBlock : U256
  deriving DecidableEq

namespace LogQueue

def new : LogQueue where
  pendingLogs := []
  lastPollBlock := 0

def addLog (self : LogQueue) (log : QueuedLog) : LogQueue :=
  { self with pendingLogs := self.pendingLogs ++ [log] }

def getChanges (self : LogQueue) : List QueuedLog × LogQueue :=
  (self.pendingLogs, { self with pendingLogs := [] })

end LogQueue

namespace LogFilter

section
variable {D : Type} (self : LogFilter D)

def notifyNewLogs (queue : LogQueue) (logs : List QueuedLog) : LogQueue :=
  logs.foldl (fun queue log => if self.matchesLog log.log then queue.addLog log else queue) queue

variable [Crypto]

def pollLog (blockNum : Nat) (block : Block) (txIndex : Nat) (log : Log × Nat) :
    Appender (Stop FilterError) QueuedLog Unit :=
  if self.matchesLog log.1 then
    match block.transactions[txIndex]? with
    | some tx => push {
        log := log.1.withPosition block.header (some tx.hash) txIndex log.2
        occurrence := ⟨blockNum, txIndex, log.2⟩ }
    | none => throw (.panic .slice)
  else pure ()

def pollReceipts (blockNum : Nat) (block : Block) (receipts : List Receipt) :
    Appender (Stop FilterError) QueuedLog Unit :=
  receipts.zipIdx.forM fun receipt =>
    receipt.1.logs.zipIdx.forM (self.pollLog blockNum block receipt.2)

variable [Database D] [Bincode Block] [Bincode (List Receipt)]

def pollBlock (blockNum : Nat) : Appender (Stop FilterError) QueuedLog Unit := do
  let block ← self.getBlock (.ofUsize blockNum)
  let receipts ← self.getReceipts block.header.hash
  self.pollReceipts blockNum block receipts

def pollRange (lastPoll currentBlock : U256) : Checked (Nat × Nat) := do
  let lastPoll ← lastPoll.asU64
  let first ← addUsize lastPoll.toNat 1
  let last ← currentBlock.asU64
  return (first, last.toNat)

/-- `poll_for_changes`, with the queue that it leaves, also where it fails. A lock of `parking_lot`
can be taken again after a panic. -/
def pollForChanges (queue : LogQueue) : Call FilterError Unit × LogQueue :=
  match self.getLatestBlockNumber with
  | .error stop => (.error stop, queue)
  | .ok currentBlock =>
    if currentBlock ≤ queue.lastPollBlock then (.ok (), queue)
    else
      match pollRange queue.lastPollBlock currentBlock with
      | .error p => (.error (.panic p), queue)
      | .ok (first, last) =>
        match ((List.range' first (last + 1 - first)).forM self.pollBlock).on queue.pendingLogs with
        | (.error stop, pendingLogs) => (.error stop, { queue with pendingLogs })
        | (.ok (), pendingLogs) => (.ok (), { pendingLogs, lastPollBlock := currentBlock })

end

def occurrences (logs : List QueuedLog) : List Occurrence := logs.map (·.occurrence)

section
variable {self : LogFilter D}

theorem pendingLogs_notifyNewLogs (self : LogFilter D) (queue : LogQueue) (logs : List QueuedLog) :
    (self.notifyNewLogs queue logs).pendingLogs =
      queue.pendingLogs ++ logs.filter fun log => self.matchesLog log.log := by
  induction logs generalizing queue with
  | nil => exact (append_nil _).symm
  | cons log logs ih =>
    rw [notifyNewLogs, foldl_cons, ← notifyNewLogs, ih]
    by_cases hmat : self.matchesLog log.log = true
    · simp [hmat, LogQueue.addLog]
    · simp [hmat]

theorem lastPollBlock_notifyNewLogs :
    (self.notifyNewLogs queue logs).lastPollBlock = queue.lastPollBlock := by
  induction logs generalizing queue with
  | nil => rfl
  | cons log logs ih =>
    rw [notifyNewLogs, foldl_cons, ← notifyNewLogs, ih]
    split_ifs
    · rfl
    · rfl

theorem pollRange_eq_ok (h : lastPoll.toNat < currentBlock.toNat) :
    pollRange lastPoll currentBlock = .ok (first, last) ↔
      currentBlock.toNat < wordBound ∧ first = lastPoll.toNat + 1 ∧ last = currentBlock.toNat := by
  simp only [pollRange, Except.bind_eq_ok, U256.asU64_eq_ok, addUsize_eq_ok]
  constructor
  · rintro ⟨lastPoll', hlast, first', hfst, cur, hcur, heq⟩
    cases heq
    have hbd := toNat_lt_wordBound cur
    omega
  · rintro ⟨hbd, rfl, rfl⟩
    have hlast := toNat_ofNat_of_lt (h.trans hbd)
    have hcur := toNat_ofNat_of_lt hbd
    exact ⟨_, hlast, _, ⟨rfl, by omega⟩, _, hcur, by rw [hlast, hcur]; rfl⟩

/-- The receipts have a log at an occurrence, and it matches. -/
def Matching (self : LogFilter D) (receipts : List Receipt) (o : Occurrence) : Prop :=
  ∃ receipt log, receipts[o.txIndex]? = some receipt ∧ receipt.logs[o.logIndex]? = some log ∧
    self.matchesLog log = true

variable [Crypto]

theorem adds_pollLog :
    Adds QueuedLog.occurrence
      {o | o = ⟨blockNum, txIndex, log.2⟩ ∧ txIndex < block.transactions.length ∧
        self.matchesLog log.1 = true}
      (self.matchesLog log.1 = true → txIndex < block.transactions.length)
      (self.pollLog blockNum block txIndex log) := by
  unfold pollLog
  by_cases hmat : self.matchesLog log.1 = true
  · rw [if_pos hmat]
    cases htx : block.transactions[txIndex]? with
    | none =>
      have hle := getElem?_eq_none_iff.mp htx
      exact (Adds.throw _).congr (by simp; omega) (by simp [hmat]; omega)
    | some tx =>
      have hlt := (List.getElem?_eq_some_iff.mp htx).1
      exact (Adds.push _).congr (by simp [hmat, hlt]) (by simp [hlt])
  · rw [if_neg hmat]
    exact (Adds.pure ()).congr (by simp [hmat]) (by simp [hmat])

theorem adds_pollLogs (logs : List Log) :
    Adds QueuedLog.occurrence
      {o | o.block = blockNum ∧ o.txIndex = txIndex ∧ txIndex < block.transactions.length ∧
        ∃ log, logs[o.logIndex]? = some log ∧ self.matchesLog log = true}
      (∀ log ∈ logs, self.matchesLog log = true → txIndex < block.transactions.length)
      (logs.zipIdx.forM (self.pollLog blockNum block txIndex)) := by
  refine (Adds.forM_zipIdx (fun _ _ => adds_pollLog) ?_).congr (fun o => ?_) ?_
  · rintro a b hlt o ⟨rfl, -⟩ ⟨h, -⟩
    exact hlt.ne (congrArg Occurrence.logIndex h)
  · constructor
    · rintro ⟨⟨log, i⟩, hlog, ⟨rfl, hlt, hmat⟩, -⟩
      exact ⟨rfl, rfl, hlt, log, mem_zipIdx_iff_getElem?.mp hlog, hmat⟩
    · rintro ⟨rfl, rfl, hlt, log, hlog, hmat⟩
      exact ⟨(log, o.logIndex), mem_zipIdx_iff_getElem?.mpr hlog, ⟨rfl, hlt, hmat⟩,
        fun _ _ _ _ => hlt⟩
  · constructor
    · intro h log hlog
      obtain ⟨i, hi⟩ := mem_iff_getElem?.mp hlog
      exact h (log, i) (mem_zipIdx_iff_getElem?.mpr hi)
    · intro h log hlog
      exact h log.1 (fst_mem_of_mem_zipIdx hlog)

theorem adds_pollReceipts :
    Adds QueuedLog.occurrence
      {o | o.block = blockNum ∧ o.txIndex < block.transactions.length ∧ self.Matching recs o}
      (∀ o, self.Matching recs o → o.txIndex < block.transactions.length)
      (self.pollReceipts blockNum block recs) := by
  refine (Adds.forM_zipIdx (fun receipt _ => adds_pollLogs receipt.1.logs) ?_).congr
    (fun o => ?_) ?_
  · rintro a b hlt o ⟨-, h, -⟩ ⟨-, h', -⟩
    exact hlt.ne (h.symm.trans h')
  · constructor
    · rintro ⟨⟨receipt, i⟩, hrec, ⟨hblk, rfl, hlt, log, hlog, hmat⟩, -⟩
      exact ⟨hblk, hlt, receipt, log, mem_zipIdx_iff_getElem?.mp hrec, hlog, hmat⟩
    · rintro ⟨hblk, hlt, receipt, log, hrec, hlog, hmat⟩
      exact ⟨(receipt, o.txIndex), mem_zipIdx_iff_getElem?.mpr hrec,
        ⟨hblk, rfl, hlt, log, hlog, hmat⟩, fun _ _ hi _ _ _ => hi.trans hlt⟩
  · constructor
    · rintro h o ⟨receipt, log, hrec, hlog, hmat⟩
      exact h (receipt, o.txIndex) (mem_zipIdx_iff_getElem?.mpr hrec) log (mem_of_getElem? hlog)
        hmat
    · intro h receipt hrec log hlog hmat
      obtain ⟨j, hj⟩ := mem_iff_getElem?.mp hlog
      exact h ⟨0, receipt.2, j⟩ ⟨receipt.1, log, mem_zipIdx_iff_getElem?.mp hrec, hj, hmat⟩

variable [Database D] [Bincode Block] [Bincode (List Receipt)]

/-- The database has the block of an occurrence, with its receipts, and there is a matching log with
its transaction. -/
def Stores (self : LogFilter D) (o : Occurrence) : Prop :=
  ∃ block receipts, self.getBlock (.ofUsize o.block) = .ok block ∧
    self.getReceipts block.header.hash = .ok receipts ∧ self.Matching receipts o ∧
    o.txIndex < block.transactions.length

/-- The block `n` can be read with its receipts, and all their matching logs have a transaction. -/
def Readable (self : LogFilter D) (n : Nat) : Prop :=
  ∃ block receipts, self.getBlock (.ofUsize n) = .ok block ∧
    self.getReceipts block.header.hash = .ok receipts ∧
    ∀ o, self.Matching receipts o → o.txIndex < block.transactions.length

/-- A matching log of a block after `lastPoll`, up to the latest one, with no block in between that
cannot be read. -/
def NewLog (self : LogFilter D) (lastPoll : U256) (o : Occurrence) : Prop :=
  ∃ latest, self.getLatestBlockNumber = .ok latest ∧ latest.toNat < wordBound ∧
    lastPoll.toNat < o.block ∧ o.block ≤ latest.toNat ∧ self.Stores o ∧
    ∀ n, lastPoll.toNat < n → n < o.block → self.Readable n

theorem adds_pollBlock :
    Adds QueuedLog.occurrence {o | o.block = blockNum ∧ self.Stores o} (self.Readable blockNum)
      (self.pollBlock blockNum) := by
  refine (Adds.liftM_bind fun block => Adds.liftM_bind fun recs => adds_pollReceipts).congr
    (fun o => ?_) ?_
  · constructor
    · rintro ⟨block, hblk, recs, hrec, rfl, hlt, hmat⟩
      exact ⟨rfl, block, recs, hblk, hrec, hmat, hlt⟩
    · rintro ⟨rfl, block, recs, hblk, hrec, hmat, hlt⟩
      exact ⟨block, hblk, recs, hrec, rfl, hlt, hmat⟩
  · simp only [Readable, exists_and_left]
    rfl

theorem adds_pollBlocks (self : LogFilter D) (first count : Nat) :
    Adds QueuedLog.occurrence
      {o | first ≤ o.block ∧ o.block < first + count ∧ self.Stores o ∧
        ∀ n, first ≤ n → n < o.block → self.Readable n}
      (∀ n, first ≤ n → n < first + count → self.Readable n)
      ((range' first count).forM self.pollBlock) := by
  refine (Adds.forM (fun _ _ => Nat.lt_asymm) pairwise_lt_range' (fun _ _ => adds_pollBlock)
    ?_).congr (fun o => ?_) (by simp only [mem_range'_1, and_imp])
  · rintro m n hlt o ⟨rfl, -⟩ ⟨h, -⟩
    exact hlt.ne h
  · constructor
    · rintro ⟨n, hn, ⟨rfl, hsto⟩, hall⟩
      obtain ⟨hfst, hlast⟩ := mem_range'_1.mp hn
      refine ⟨hfst, hlast, hsto, fun n hle hlt => hall n (mem_range'_1.mpr ⟨hle, ?_⟩) hlt⟩
      exact hlt.trans hlast
    · rintro ⟨hfst, hlast, hsto, hall⟩
      exact ⟨o.block, mem_range'_1.mpr ⟨hfst, hlast⟩, ⟨rfl, hsto⟩,
        fun n hn => hall n (mem_range'_1.mp hn).1⟩

/-- What a poll does to the queue: it adds the new logs, and if it completes they are from no later
block than the new mark. -/
structure Polls (filter : LogFilter D) (queue : LogQueue) (result : Call FilterError Unit)
    (queue' : LogQueue) (added : List QueuedLog) : Prop where
  pendingLogs : queue'.pendingLogs = queue.pendingLogs ++ added
  nodup : (occurrences added).Nodup
  mem_iff : ∀ o, o ∈ occurrences added ↔ filter.NewLog queue.lastPollBlock o
  le : result = .ok () → ∀ o ∈ occurrences added, o.block ≤ queue'.lastPollBlock.toNat
  mark : queue.lastPollBlock.toNat ≤ queue'.lastPollBlock.toNat

theorem Polls.nothing (h : ∀ o, ¬self.NewLog queue.lastPollBlock o) :
    Polls self queue res queue [] :=
  ⟨(append_nil _).symm, .nil, fun o => iff_of_false not_mem_nil (h o), nofun, le_rfl⟩

theorem pollForChanges_spec (self : LogFilter D) (queue : LogQueue) :
    ∃ added,
      Polls self queue (self.pollForChanges queue).1 (self.pollForChanges queue).2 added := by
  unfold pollForChanges
  cases hlat : self.getLatestBlockNumber with
  | error stop =>
    refine ⟨[], .nothing fun o ⟨latest, h, _⟩ => ?_⟩
    rw [hlat] at h
    cases h
  | ok currentBlock =>
    have hnewL : ∀ o, self.NewLog queue.lastPollBlock o ↔
        currentBlock.toNat < wordBound ∧ queue.lastPollBlock.toNat < o.block ∧
          o.block ≤ currentBlock.toNat ∧ self.Stores o ∧
          ∀ n, queue.lastPollBlock.toNat < n → n < o.block → self.Readable n := by
      simp [NewLog, hlat]
    dsimp only
    split_ifs with hold
    · refine ⟨[], .nothing fun o ho => ?_⟩
      obtain ⟨-, hlt, hle, -⟩ := (hnewL o).mp ho
      exact absurd (hlt.trans_le hle) (not_lt.mpr hold)
    have hnew : queue.lastPollBlock.toNat < currentBlock.toNat := not_le.mp hold
    cases hrng : pollRange queue.lastPollBlock currentBlock with
    | error p =>
      refine ⟨[], .nothing fun o ho => ?_⟩
      rw [(pollRange_eq_ok hnew).mpr ⟨((hnewL o).mp ho).1, rfl, rfl⟩] at hrng
      cases hrng
    | ok range =>
      obtain ⟨first, last⟩ := range
      obtain ⟨hbd, rfl, rfl⟩ := (pollRange_eq_ok hnew).mp hrng
      obtain ⟨added, hadd, hnd, hmem, -⟩ := adds_pollBlocks self
        (queue.lastPollBlock.toNat + 1)
        (currentBlock.toNat + 1 - (queue.lastPollBlock.toNat + 1)) queue.pendingLogs
      rw [Nat.add_sub_cancel' (by omega)] at hmem
      have hadds : ∀ o, o ∈ occurrences added ↔ self.NewLog queue.lastPollBlock o := by
        intro o
        rw [hnewL, and_iff_right hbd, ← Nat.lt_succ_iff (n := currentBlock.toNat)]
        exact hmem o
      refine ⟨added, ?_⟩
      dsimp only
      generalize Appender.on _ _ = run at hadd ⊢
      rcases run with ⟨stop | _, pendingLogs⟩
      · exact ⟨hadd, hnd, hadds, nofun, le_rfl⟩
      · exact ⟨hadd, hnd, hadds, fun _ o ho => ((hnewL o).mp ((hadds o).mp ho)).2.2.1, hnew.le⟩

end

end LogFilter

/-- A call on a filter. A poll finds the database as it is at that time. -/
inductive FilterCall (D : Type) where
  | notifyNewLogs (logs : List QueuedLog)
  | pollForChanges (db : D)
  | getChanges

/-- A filter with a record of what has been returned and of what was queued by whom. -/
structure Session where
  queue : LogQueue
  returned : List QueuedLog
  notified : List Occurrence
  polled : List Occurrence
  abandoned : List Occurrence

namespace Session
open LogFilter

def new : Session where
  queue := .new
  returned := []
  notified := []
  polled := []
  abandoned := []

def added (queue queue' : LogQueue) : List Occurrence :=
  occurrences (queue'.pendingLogs.drop queue.pendingLogs.length)

def seen (s : Session) : List Occurrence := occurrences (s.returned ++ s.queue.pendingLogs)

theorem added_of_append {queue queue' : LogQueue}
    (h : queue'.pendingLogs = queue.pendingLogs ++ logs) :
    added queue queue' = occurrences logs := by
  rw [added, h, drop_left]

theorem seen_of_append {s s' : Session} (hret : s'.returned = s.returned)
    (h : s'.queue.pendingLogs = s.queue.pendingLogs ++ logs) :
    s'.seen = s.seen ++ occurrences logs := by
  rw [seen, hret, h, ← append_assoc]
  exact map_append

structure Consistent (s : Session) : Prop where
  perm : s.seen.Perm (s.notified ++ s.polled ++ s.abandoned)
  polled_le : ∀ o ∈ s.polled, o.block ≤ s.queue.lastPollBlock.toNat

theorem consistent_new : Consistent new := ⟨.refl _, nofun⟩

theorem Consistent.notMem_seen_iff {s : Session} (h : s.Consistent) :
    o ∉ s.seen ↔ o ∉ s.notified ∧ o ∉ s.polled ∧ o ∉ s.abandoned := by
  rw [h.perm.mem_iff, mem_append, mem_append, not_or, not_or, and_assoc]

theorem nodup_seen_append_iff {s : Session} (hs : s.seen.Nodup) {new : List Occurrence} :
    (s.seen ++ new).Nodup ↔ new.Nodup ∧ ∀ o ∈ new, o ∉ s.seen := by
  rw [nodup_append', and_iff_right hs, disjoint_right]

def afterPoll (s : Session) : Call FilterError Unit × LogQueue → Session
  | (.ok (), queue) => { s with queue, polled := s.polled ++ added s.queue queue }
  | (.error _, queue) => { s with queue, abandoned := s.abandoned ++ added s.queue queue }

section
variable [Crypto] [Database D] [Bincode Block] [Bincode (List Receipt)]
variable {self : LogFilter D} {s : Session}

theorem seen_afterPoll (h : Polls self s.queue poll.1 poll.2 logs) :
    (s.afterPoll poll).seen = s.seen ++ occurrences logs := by
  rcases poll with ⟨stop | _, queue⟩
  · exact seen_of_append rfl h.pendingLogs
  · exact seen_of_append rfl h.pendingLogs

theorem Consistent.afterPoll (hs : s.Consistent) (h : Polls self s.queue poll.1 poll.2 logs) :
    (s.afterPoll poll).Consistent := by
  have hseen := seen_afterPoll h
  have hadd := added_of_append h.pendingLogs
  have hperm := hs.perm.append_right (occurrences logs)
  rcases poll with ⟨stop | _, queue⟩
  · refine ⟨?_, fun o ho => (hs.polled_le o ho).trans h.mark⟩
    rw [hseen]
    change List.Perm _ (s.notified ++ s.polled ++ (s.abandoned ++ added s.queue queue))
    rwa [hadd, ← append_assoc]
  · refine ⟨?_, fun o ho => ?_⟩
    · rw [hseen]
      change List.Perm _ (s.notified ++ (s.polled ++ added s.queue queue) ++ s.abandoned)
      rw [hadd, ← append_assoc, append_assoc (s.notified ++ s.polled)]
      rw [append_assoc] at hperm
      exact hperm.trans (perm_append_comm.append_left _)
    · rcases mem_append.mp ho with ho | ho
      · exact (hs.polled_le o ho).trans h.mark
      · exact h.le rfl o (hadd ▸ ho)

def perform (self : LogFilter D) (s : Session) : FilterCall D → Session
  | .notifyNewLogs logs =>
    let queue := self.notifyNewLogs s.queue logs
    { s with queue, notified := s.notified ++ added s.queue queue }
  | .pollForChanges db => s.afterPoll (({ self with db } : LogFilter D).pollForChanges s.queue)
  | .getChanges =>
    let (logs, queue) := s.queue.getChanges
    { s with queue, returned := s.returned ++ logs }

/-- The session after the calls. -/
def after (self : LogFilter D) (calls : List (FilterCall D)) : Session :=
  calls.foldl (perform self) new

/-- What a call is told, or can read, has not been queued before. For a poll this need not be said
about what polls have completed. -/
def Fresh (self : LogFilter D) (s : Session) : FilterCall D → Prop
  | .notifyNewLogs logs =>
    (occurrences (logs.filter fun log => self.matchesLog log.log)).Nodup ∧
      ∀ o ∈ occurrences (logs.filter fun log => self.matchesLog log.log),
        o ∉ s.notified ∧ o ∉ s.polled ∧ o ∉ s.abandoned
  | .pollForChanges db =>
    ∀ o, ({ self with db } : LogFilter D).NewLog s.queue.lastPollBlock o →
      o ∉ s.notified ∧ o ∉ s.abandoned
  | .getChanges => True

theorem seen_notifyNewLogs (self : LogFilter D) :
    (s.perform self (.notifyNewLogs logs)).seen =
      s.seen ++ occurrences (logs.filter fun log => self.matchesLog log.log) :=
  seen_of_append rfl (pendingLogs_notifyNewLogs self s.queue logs)

theorem seen_getChanges (self : LogFilter D) : (s.perform self .getChanges).seen = s.seen := by
  change occurrences (s.returned ++ s.queue.pendingLogs ++ []) = _
  rw [append_nil]
  rfl

theorem Consistent.perform (h : s.Consistent) (call : FilterCall D) :
    (s.perform self call).Consistent := by
  cases call with
  | notifyNewLogs logs =>
    have hadd := added_of_append (pendingLogs_notifyNewLogs self s.queue logs)
    constructor
    · rw [seen_notifyNewLogs]
      change List.Perm _ (s.notified ++ added s.queue _ ++ s.polled ++ s.abandoned)
      rw [hadd, append_assoc, append_assoc s.notified]
      refine (h.perm.append_right _).trans ?_
      rw [append_assoc, append_assoc]
      refine List.Perm.append_left _ ?_
      rw [← append_assoc]
      exact perm_append_comm
    · intro o ho
      change o.block ≤ (self.notifyNewLogs s.queue logs).lastPollBlock.toNat
      rw [lastPollBlock_notifyNewLogs]
      exact h.polled_le o ho
  | pollForChanges db =>
    obtain ⟨logs, hpol⟩ := pollForChanges_spec { self with db } s.queue
    exact h.afterPoll hpol
  | getChanges => exact ⟨(seen_getChanges self).symm ▸ h.perm, h.polled_le⟩

theorem nodup_seen_perform_iff (self : LogFilter D) (h : s.Consistent) (hs : s.seen.Nodup)
    (call : FilterCall D) : (s.perform self call).seen.Nodup ↔ Fresh self s call := by
  cases call with
  | notifyNewLogs logs =>
    rw [seen_notifyNewLogs, nodup_seen_append_iff hs]
    simp only [h.notMem_seen_iff]
    rfl
  | pollForChanges db =>
    obtain ⟨logs, hpoll⟩ := pollForChanges_spec { self with db } s.queue
    rw [perform, seen_afterPoll hpoll, nodup_seen_append_iff hs, and_iff_right hpoll.nodup]
    simp only [hpoll.mem_iff]
    refine forall₂_congr fun o ho => ?_
    have hnew : o ∉ s.polled := by
      intro hpol
      obtain ⟨-, -, -, hlt, -⟩ := ho
      exact absurd (h.polled_le o hpol) (not_le.mpr hlt)
    rw [h.notMem_seen_iff, and_iff_right hnew]
  | getChanges =>
    rw [seen_getChanges]
    exact iff_of_true hs trivial

theorem seen_sublist_perform (call : FilterCall D) : s.seen.Sublist (s.perform self call).seen := by
  cases call with
  | notifyNewLogs logs =>
    rw [seen_notifyNewLogs]
    exact sublist_append_left ..
  | pollForChanges db =>
    obtain ⟨logs, hpol⟩ := pollForChanges_spec { self with db } s.queue
    rw [perform, seen_afterPoll hpol]
    exact sublist_append_left ..
  | getChanges => rw [seen_getChanges]

theorem seen_sublist_foldl (s : Session) (calls : List (FilterCall D)) :
    s.seen.Sublist (calls.foldl (perform self) s).seen := by
  induction calls generalizing s with
  | nil => exact .refl _
  | cons call calls ih => exact (seen_sublist_perform call).trans (ih _)

theorem nodup_seen_foldl_iff (h : s.Consistent) (hs : s.seen.Nodup) (calls : List (FilterCall D)) :
    (calls.foldl (perform self) s).seen.Nodup ↔
      History.Along (fun s call => some (perform self s call)) (Fresh self) s calls := by
  induction calls generalizing s with
  | nil => exact iff_of_true hs trivial
  | cons call calls ih =>
    have hstep := nodup_seen_perform_iff self h hs call
    constructor
    · intro hnd
      have hnext := hnd.sublist (seen_sublist_foldl _ calls)
      refine ⟨hstep.mp hnext, fun s' hs' => ?_⟩
      cases hs'
      exact (ih (h.perform call) hnext).mp hnd
    · rintro ⟨hfr, halo⟩
      exact (ih (h.perform call) (hstep.mpr hfr)).mpr (halo _ rfl)

end

/-- After any calls, and one more `get_changes`, every log occurrence has been returned at most once
exactly if each of the calls was fresh: no log was notified that had been queued before, and no poll
found one in the blocks it can read that had been notified or that an earlier poll had queued and
then failed. -/
theorem returned_once_iff {D : Type} [Crypto] [Database D] [Bincode Block] [Bincode (List Receipt)]
    (self : LogFilter D) (calls : List (FilterCall D)) :
    (∀ o, (occurrences (after self (calls ++ [.getChanges])).returned).count o ≤ 1) ↔
      History.Along (fun s call => some (perform self s call)) (Fresh self) new calls := by
  rw [← nodup_seen_foldl_iff consistent_new nodup_nil, after, foldl_append,
    ← nodup_iff_count_le_one]
  rfl

namespace Sample
open LogFilter.Sample Unhashed

def chain (latest : U256) (stored : Nat) : List (Bytes × Bytes) :=
  (asBytes "latest_block", (H256.ofU256 latest).toList) ::
    (blockKey H256.zero.toList, []) :: (receiptsKey .zero, []) ::
    (List.range' 1 stored).map fun n => (blockNumberKey (.ofUsize n), H256.zero.toList)

def log : QueuedLog := ⟨BloomFilter.sampleLog, ⟨1, 0, 0⟩⟩

/-- The log of block 1 is notified and polled, or it is polled twice because block 2 could not be
read the first time. -/
theorem returned_twice :
    occurrences (after (filter none)
        [.notifyNewLogs [log], .pollForChanges (chain 1 1), .getChanges]).returned =
      [⟨1, 0, 0⟩, ⟨1, 0, 0⟩] ∧
    occurrences (after (filter none)
        [.pollForChanges (chain 2 1), .pollForChanges (chain 2 2), .getChanges]).returned =
      [⟨1, 0, 0⟩, ⟨1, 0, 0⟩, ⟨2, 0, 0⟩] := by
  decide +kernel

end Sample

end Session

end EthereumRust.Filter
