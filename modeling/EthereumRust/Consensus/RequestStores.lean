import EthereumRust.Consensus.Eip7002

/-!
# The two stores of withdrawal requests agree

Each store is compared with the same short description of a block: the first 16 requests are
accepted and given back in order, the others are turned away, and the excess grows by what was
accepted less two.
-/

namespace EthereumRust.Consensus
open Rust Rust.Method

section
variable {σ ε ι : Type} {call : ι → Method σ ε Unit} {e : ε}

def submitAll (call : ι → Method σ ε Unit) : List ι → σ → Checked (List (Except ε Unit) × σ)
  | [], s => .ok ([], s)
  | item :: items, s =>
    match call item s with
    | .ok _ s' => do
      let (answers, s'') ← submitAll call items s'
      return (.ok () :: answers, s'')
    | .err e s' => do
      let (answers, s'') ← submitAll call items s'
      return (.error e :: answers, s'')
    | .panic p => .error p

def answers (e : ε) (room length : Nat) : List (Except ε Unit) :=
  List.replicate (min room length) (.ok ()) ++ List.replicate (length - room) (.error e)

theorem answers_succ : answers e (room + 1) (length + 1) = .ok () :: answers e room length := by
  rw [answers, Nat.succ_min_succ, Nat.add_sub_add_right]
  rfl

/-- `call` puts an item into a store, as long as there is room, and answers `e` afterwards. `Holds`
says how much room there is and which items are in the store. -/
structure Intake (call : ι → Method σ ε Unit) (e : ε) (Offered : ι → Prop)
    (Holds : Nat → List ι → σ → Prop) : Prop where
  take : ∀ {room items item s}, Offered item → Holds (room + 1) items s →
    ∃ s', call item s = .ok () s' ∧ Holds room (items ++ [item]) s'
  full : ∀ {items item s}, Offered item → Holds 0 items s → call item s = .err e s

theorem Intake.submitAll_eq
    (H : Intake call e Offered Holds) (hoff : ∀ offer ∈ offers, Offered offer)
    (room : Nat) (items : List ι) (h : Holds room items s) :
    ∃ s', submitAll call offers s = .ok (answers e room offers.length, s') ∧
      Holds (room - offers.length) (items ++ offers.take room) s' := by
  induction offers generalizing room items s with
  | nil =>
    refine ⟨s, ?_, ?_⟩
    · simp [submitAll, answers]
    · rwa [List.take_nil, List.append_nil]
  | cons offer offers ih =>
    obtain ⟨hoffe, hrest⟩ := List.forall_mem_cons.mp hoff
    cases room with
    | zero =>
      obtain ⟨s', hsub, hhol⟩ := ih hrest 0 items h
      refine ⟨s', ?_, ?_⟩
      · rw [submitAll, H.full hoffe h]
        dsimp only
        rw [hsub]
        rfl
      · rwa [Nat.zero_sub] at hhol ⊢
    | succ room =>
      obtain ⟨s₁, hcall, htak⟩ := H.take hoffe h
      obtain ⟨s', hsub, hhol⟩ := ih hrest room (items ++ [offer]) htak
      refine ⟨s', ?_, ?_⟩
      · rw [submitAll, hcall, List.length_cons, answers_succ]
        dsimp only
        rw [hsub]
        rfl
      · rw [List.append_assoc] at hhol
        rwa [List.length_cons, Nat.add_sub_add_right, List.take_succ_cons]

end

structure BlockReport where
  answers : List (Except Eip7002Error Unit)
  returned : List WithdrawalRequest
  excess : UInt64
  fee : U256

/-- The reports of a list of blocks, one after the other. -/
def runBlocks {σ β ρ : Type} (runBlock : σ → β → Checked (ρ × σ)) :
    σ → List β → Checked (List ρ × σ)
  | s, [] => .ok ([], s)
  | s, block :: blocks => do
    let (report, s) ← runBlock s block
    let (reports, s) ← runBlocks runBlock s blocks
    return (report :: reports, s)

abbrev PaidBlock := List (WithdrawalRequest × U256)

section
variable [Build]

def WithdrawalRequestContract.runBlock (self : WithdrawalRequestContract) (block : PaidBlock) :
    Checked (BlockReport × WithdrawalRequestContract) := do
  let (answers, self) ← submitAll (fun offer => addRequest offer.1 offer.2) block self
  let (returned, self) ← self.processRequests
  return (⟨answers, returned, self.excessRequests, self.currentFee⟩, self)

def WithdrawalRequestQueue.runBlock (self : WithdrawalRequestQueue)
    (block : List WithdrawalRequest) : Checked (BlockReport × WithdrawalRequestQueue) := do
  let (answers, self) ← submitAll enqueue block self
  let (returned, self) ← self.dequeueUpTo maxWithdrawalRequestsPerBlock
  return (⟨answers, returned, self.excess, ← self.getFee⟩, self)

end

def nextExcess (excess : UInt64) (length : Nat) : UInt64 :=
  .ofNat (excess.toNat + min 16 length - 2)

def blockReport (requests : List WithdrawalRequest) (excess : UInt64) (fee : U256) : BlockReport :=
  ⟨answers .tooManyRequests 16 requests.length, requests.take 16, excess, fee⟩

/-- Every request of every block is sent with the fee of that block. -/
def FeesPaid (excess : UInt64) : List PaidBlock → Prop
  | [] => ∃ fee, calculateWithdrawalRequestFee excess = .ok fee
  | block :: blocks =>
    (∃ fee, calculateWithdrawalRequestFee excess = .ok fee ∧ ∀ offer ∈ block, fee ≤ offer.2) ∧
      FeesPaid (nextExcess excess block.length) blocks

theorem FeesPaid.fee (h : FeesPaid excess blocks) :
    ∃ fee, calculateWithdrawalRequestFee excess = .ok fee := by
  cases blocks with
  | nil => exact h
  | cons block blocks =>
    obtain ⟨⟨fee, hfee, -⟩, -⟩ := h
    exact ⟨fee, hfee⟩

theorem lt_of_fee
    (h : calculateWithdrawalRequestFee excess = .ok fee) : excess.toNat + 16 < wordBound := by
  have hlast : ∀ i : Fin 16, calculateWithdrawalRequestFee (.ofNat (wordBound - 16 + i)) =
      .error .arithmetic := by decide +kernel
  by_contra hge
  have hlt := toNat_lt_wordBound excess
  have hexc : excess = .ofNat (wordBound - 16 + (excess.toNat - (wordBound - 16))) := by
    rw [Nat.add_sub_cancel' (by omega), UInt64.ofNat_toNat]
  rw [hexc, hlast ⟨excess.toNat - (wordBound - 16), by omega⟩] at h
  cases h

theorem toNat_ofNat_count (h : count ≤ 16) : (UInt64.ofNat count).toNat = count :=
  toNat_ofNat_of_lt (lt_of_le_of_lt h (by decide))

namespace WithdrawalRequestContract

theorem intake_addRequest :
    Intake (fun offer : WithdrawalRequest × U256 => addRequest offer.1 offer.2)
      .tooManyRequests (fun offer => fee ≤ offer.2)
      (fun room items t =>
        items.length + room = 16 ∧ t = ⟨items.map Prod.fst, excess, fee⟩) where
  take := by
    rintro room items offer t hfee ⟨hlen, rfl⟩
    have hroom : ¬(items.map Prod.fst).length ≥ maxWithdrawalRequestsPerBlock.toNat := by
      rw [List.length_map, not_le]
      change items.length < 16
      omega
    refine ⟨⟨(items ++ [offer]).map Prod.fst, excess, fee⟩, ?_, ?_, rfl⟩
    · rw [addRequest, bind_read, if_neg (BitVec.not_lt.mpr hfee), bind_read, if_neg hroom,
        List.map_append]
      rfl
    · rw [List.length_append, List.length_singleton]
      omega
  full := by
    rintro items offer t hfee ⟨hlen, rfl⟩
    have hroom : (items.map Prod.fst).length ≥ maxWithdrawalRequestsPerBlock.toNat := by
      rw [List.length_map]
      exact hlen.ge
    rw [addRequest, bind_read, if_neg (BitVec.not_lt.mpr hfee), bind_read, if_pos hroom]
    rfl

variable [Build] {t : WithdrawalRequestContract}

theorem updateExcessRequests_eq (h : t.excessRequests.toNat + 16 < wordBound)
    (hcnt : count ≤ 16) : t.updateExcessRequests (.ofNat count) =
      .ok { t with excessRequests := .ofNat (t.excessRequests.toNat + count - 2) } := by
  have hsum : t.excessRequests.toNat + (UInt64.ofNat count).toNat < wordBound := by
    rw [toNat_ofNat_count hcnt]
    omega
  have htot : (t.excessRequests + .ofNat count).toNat = t.excessRequests.toNat + count := by
    rw [toNat_add_of_lt hsum, toNat_ofNat_count hcnt]
  refine Except.bind_eq_ok.mpr ⟨_, plusU64_of_lt hsum, ?_⟩
  split_ifs with hover
  · rw [gt_iff_lt, UInt64.lt_iff_toNat_lt, htot] at hover
    have hsub : subU64 (t.excessRequests + .ofNat count) targetWithdrawalRequestsPerBlock =
        .ok (.ofNat (t.excessRequests.toNat + count - 2)) := by
      rw [subU64_eq_ok, htot, toNat_ofNat_of_lt (by omega)]
      exact Nat.sub_add_cancel hover.le
    exact Except.bind_eq_ok.mpr ⟨_, plusU64_of_lt hsum, Except.bind_eq_ok.mpr ⟨_, hsub, rfl⟩⟩
  · rw [gt_iff_lt, UInt64.lt_iff_toNat_lt, htot, not_lt] at hover
    have hzero : t.excessRequests.toNat + count - 2 = 0 := Nat.sub_eq_zero_of_le hover
    rw [hzero]
    rfl

theorem processRequests_eq {reqs : List WithdrawalRequest} {excess : UInt64}
    (h : excess.toNat + 16 < wordBound) (hlen : reqs.length ≤ 16)
    (hfee : calculateWithdrawalRequestFee (.ofNat (excess.toNat + reqs.length - 2)) = .ok fee') :
    processRequests ⟨reqs, excess, fee⟩ =
      .ok (reqs, ⟨[], .ofNat (excess.toNat + reqs.length - 2), fee'⟩) := by
  refine Except.bind_eq_ok.mpr ⟨_, updateExcessRequests_eq h hlen, ?_⟩
  exact Except.bind_eq_ok.mpr ⟨_, Except.bind_eq_ok.mpr ⟨fee', hfee, rfl⟩, rfl⟩

theorem runBlock_eq (h : excess.toNat + 16 < wordBound) (hpaid : ∀ offer ∈ block, fee ≤ offer.2)
    (hfee : calculateWithdrawalRequestFee (nextExcess excess block.length) = .ok fee') :
    runBlock ⟨[], excess, fee⟩ block =
      .ok (blockReport (block.map Prod.fst) (nextExcess excess block.length) fee',
        ⟨[], nextExcess excess block.length, fee'⟩) := by
  obtain ⟨t, hsub, -, rfl⟩ := intake_addRequest.submitAll_eq hpaid 16 [] ⟨rfl, rfl⟩
  have hlen : ((block.take 16).map Prod.fst).length = min 16 block.length := by
    rw [List.length_map, List.length_take]
  rw [nextExcess, ← hlen] at hfee ⊢
  have hpro : processRequests ⟨(block.take 16).map Prod.fst, excess, fee⟩ = _ :=
    processRequests_eq h (hlen ▸ min_le_left _ _) hfee
  have hrep (excess : UInt64) : blockReport (block.map Prod.fst) excess fee' =
      ⟨answers .tooManyRequests 16 block.length, (block.take 16).map Prod.fst, excess, fee'⟩ := by
    rw [blockReport, List.length_map, List.map_take]
  rw [hrep]
  exact Except.bind_eq_ok.mpr ⟨_, hsub, Except.bind_eq_ok.mpr ⟨_, hpro, rfl⟩⟩

end WithdrawalRequestContract

namespace WithdrawalRequestQueue
variable [Build] {head tail excess : UInt64} {requests : List WithdrawalRequest}

theorem intake_enqueue (head : UInt64)
    (h : Build.overflowChecks = true → taken + 16 < wordBound) :
    Intake enqueue .tooManyRequests (fun _ => True)
      (fun room items t =>
        items.length + room = 16 ∧ ∃ tail : UInt64, tail.toNat ≤ taken + items.length ∧
          t = ⟨head, tail, .ofNat items.length, excess, items⟩) where
  take := by
    rintro room items req t - ⟨hlen, tail, htail, rfl⟩
    have hits : items.length ≤ 16 := by omega
    have hroom : ¬UInt64.ofNat items.length ≥ maxWithdrawalRequestsPerBlock := by
      rw [ge_iff_le, UInt64.le_iff_toNat_le, toNat_ofNat_count hits, not_le]
      change items.length < 16
      omega
    have hlt : Build.overflowChecks = true → tail.toNat + 1 < wordBound := by
      intro hchk
      have hbd := h hchk
      omega
    obtain ⟨tail', htail', hle⟩ := exists_plusU64_one hlt
    have hcnt : plusU64 (.ofNat items.length) 1 = .ok (.ofNat (items.length + 1)) := by
      rw [plusU64_of_lt, UInt64.ofNat_add]
      · rfl
      · rw [toNat_ofNat_count hits]
        change items.length + 1 < 2 ^ 64
        omega
    refine ⟨⟨head, tail', .ofNat (items.length + 1), excess, items ++ [req]⟩, ?_, ?_, tail', ?_, ?_⟩
    · rw [enqueue, bind_read, if_neg hroom, bind_read, bind_of_ok (checked_eq_ok.mpr ⟨htail', rfl⟩),
        bind_read, bind_of_ok (checked_eq_ok.mpr ⟨hcnt, rfl⟩)]
      rfl
    · rw [List.length_append, List.length_singleton]
      omega
    · rw [List.length_append, List.length_singleton]
      omega
    · rw [List.length_append, List.length_singleton]
  full := by
    rintro items req t - ⟨hlen, tail, -, rfl⟩
    have hits : items.length = 16 := hlen
    have hroom : UInt64.ofNat items.length ≥ maxWithdrawalRequestsPerBlock := by
      rw [hits]
      decide
    rw [enqueue, bind_read, if_pos hroom]
    rfl

theorem dequeueTimes_eq (hlen : reqs.length ≤ 16) (hhead : head.toNat ≤ given)
    (h : Build.overflowChecks = true → given + reqs.length < wordBound) :
    ∃ head', head'.toNat ≤ given + reqs.length ∧
      dequeueTimes reqs.length ⟨head, tail, .ofNat reqs.length, excess, reqs⟩ =
        .ok (reqs, ⟨head', tail, 0, excess, []⟩) := by
  induction reqs generalizing head given with
  | nil => exact ⟨head, hhead, rfl⟩
  | cons req reqs ih =>
    rw [List.length_cons] at hlen h
    have hlt : Build.overflowChecks = true → head.toNat + 1 < wordBound := by
      intro hchk
      have hbd := h hchk
      omega
    obtain ⟨head₁, hplus, hle⟩ := exists_plusU64_one hlt
    have hcnt := toNat_ofNat_count hlen
    have hne : UInt64.ofNat (reqs.length + 1) ≠ 0 := by
      rw [Ne, ← UInt64.toNat_inj, hcnt]
      exact Nat.succ_ne_zero _
    have hsub : subU64 (.ofNat (reqs.length + 1)) 1 = .ok (.ofNat reqs.length) := by
      rw [subU64_eq_ok, hcnt, toNat_ofNat_count (by omega)]
      rfl
    have hdeq :
        dequeue ⟨head, tail, .ofNat (reqs.length + 1), excess, req :: reqs⟩ =
          .ok (some req, ⟨head₁, tail, .ofNat reqs.length, excess, reqs⟩) := by
      rw [dequeue, if_neg hne]
      exact Except.bind_eq_ok.mpr ⟨_, hplus, Except.bind_eq_ok.mpr ⟨_, hsub, rfl⟩⟩
    have hhead₁ : head₁.toNat ≤ given + 1 := by omega
    have h₁ : Build.overflowChecks = true → given + 1 + reqs.length < wordBound := by
      intro hchk
      have hbd := h hchk
      omega
    obtain ⟨head', hhead', hrest⟩ := ih (by omega) hhead₁ h₁
    rw [List.length_cons]
    refine ⟨head', by omega, ?_⟩
    exact Except.bind_eq_ok.mpr ⟨_, hdeq, Except.bind_eq_ok.mpr ⟨_, hrest, rfl⟩⟩

theorem updateExcess_eq {t : WithdrawalRequestQueue} (h : t.excess.toNat + 16 < wordBound)
    {count : Nat} (hcnt : count ≤ 16) : t.updateExcess (.ofNat count) =
      .ok { t with excess := .ofNat (t.excess.toNat + count - 2) } := by
  have htoN := toNat_ofNat_count hcnt
  rw [updateExcess]
  split_ifs with hover hpos
  · rw [gt_iff_lt, UInt64.lt_iff_toNat_lt, htoN] at hover
    change 2 < count at hover
    have hsub : subU64 (.ofNat count) targetWithdrawalRequestsPerBlock =
        .ok (.ofNat (count - 2)) := by
      rw [subU64_eq_ok, htoN, toNat_ofNat_count (by omega)]
      exact Nat.sub_add_cancel hover.le
    have hplus : plusU64 t.excess (.ofNat (count - 2)) =
        .ok (.ofNat (t.excess.toNat + count - 2)) := by
      rw [plusU64_of_lt (by rw [toNat_ofNat_count (by omega)]; omega), Nat.add_sub_assoc hover.le,
        UInt64.ofNat_add, UInt64.ofNat_toNat]
    exact Except.bind_eq_ok.mpr ⟨_, hsub, Except.bind_eq_ok.mpr ⟨_, hplus, rfl⟩⟩
  · rw [gt_iff_lt, UInt64.lt_iff_toNat_lt, htoN, not_lt] at hover
    change count ≤ 2 at hover
    have hsub : subU64 targetWithdrawalRequestsPerBlock (.ofNat count) =
        .ok (.ofNat (2 - count)) := by
      rw [subU64_eq_ok, htoN, toNat_ofNat_count (by omega)]
      exact Nat.sub_add_cancel hover
    refine Except.bind_eq_ok.mpr ⟨_, hsub, ?_⟩
    rw [saturatingSub, toNat_ofNat_count (by omega), Nat.sub_sub_right _ hover]
    rfl
  · rw [gt_iff_lt, UInt64.lt_iff_toNat_lt, htoN, not_lt] at hover
    change count ≤ 2 at hover
    rw [gt_iff_lt, UInt64.lt_iff_toNat_lt, not_lt] at hpos
    have hzero : t.excess.toNat = 0 := Nat.le_zero.mp hpos
    have hexc : UInt64.ofNat (t.excess.toNat + count - 2) = t.excess := by
      rw [← UInt64.toNat_inj, hzero, zero_add, Nat.sub_eq_zero_of_le hover]
      rfl
    rw [hexc]
    rfl

theorem dequeueUpTo_eq (h : excess.toNat + 16 < wordBound)
    (hlen : reqs.length ≤ 16) (hhead : head.toNat ≤ given)
    (hchk : Build.overflowChecks = true → given + reqs.length < wordBound) :
    ∃ head', head'.toNat ≤ given + reqs.length ∧
      dequeueUpTo ⟨head, tail, .ofNat reqs.length, excess, reqs⟩
        maxWithdrawalRequestsPerBlock =
          .ok (reqs, ⟨head', tail, 0, .ofNat (excess.toNat + reqs.length - 2), []⟩) := by
  obtain ⟨head', hhead', hdeq⟩ := dequeueTimes_eq hlen hhead hchk
  have htim : (min (.ofNat reqs.length) maxWithdrawalRequestsPerBlock).toNat =
      reqs.length := by
    have hle : UInt64.ofNat reqs.length ≤ maxWithdrawalRequestsPerBlock := by
      rw [UInt64.le_iff_toNat_le, toNat_ofNat_count hlen]
      exact hlen
    exact (congrArg UInt64.toNat (if_pos hle)).trans (toNat_ofNat_count hlen)
  refine ⟨head', hhead', Except.bind_eq_ok.mpr ⟨(reqs, ⟨head', tail, 0, excess, []⟩), ?_, ?_⟩⟩
  · rw [htim]
    exact hdeq
  · exact Except.bind_eq_ok.mpr ⟨_, updateExcess_eq h hlen, rfl⟩

theorem runBlock_eq {fee : U256} {block : List WithdrawalRequest}
    (h : excess.toNat + 16 < wordBound) (hhead : head.toNat ≤ taken) (htail : tail.toNat ≤ taken)
    (hchk : Build.overflowChecks = true → taken + 16 < wordBound)
    (hfee : calculateWithdrawalRequestFee (nextExcess excess block.length) = .ok fee) :
    ∃ head' tail' : UInt64, head'.toNat ≤ taken + 16 ∧ tail'.toNat ≤ taken + 16 ∧
      runBlock ⟨head, tail, 0, excess, []⟩ block =
        .ok (blockReport block (nextExcess excess block.length) fee,
          ⟨head', tail', 0, nextExcess excess block.length, []⟩) := by
  obtain ⟨t, hsub, -, tail', htail', rfl⟩ :=
    (intake_enqueue head hchk).submitAll_eq (fun _ (_ : _ ∈ block) => trivial) 16 []
      ⟨rfl, tail, htail, rfl⟩
  rw [List.nil_append] at hsub htail'
  have hlen : (block.take 16).length = min 16 block.length := List.length_take
  have hle : (block.take 16).length ≤ 16 := hlen ▸ min_le_left _ _
  have hchk' : Build.overflowChecks = true → taken + (block.take 16).length < wordBound := by
    intro hbld
    have hbd := hchk hbld
    omega
  obtain ⟨head', hhead', hdeq⟩ := dequeueUpTo_eq h hle hhead hchk'
  rw [nextExcess, ← hlen] at hfee ⊢
  refine ⟨head', tail', by omega, by omega, ?_⟩
  refine Except.bind_eq_ok.mpr ⟨_, hsub, Except.bind_eq_ok.mpr ⟨_, hdeq, ?_⟩⟩
  exact Except.bind_eq_ok.mpr ⟨fee, hfee, rfl⟩

end WithdrawalRequestQueue

section
variable [Build]

/-- The two stores report the same, block by block. -/
theorem runBlocks_agree
    (h : FeesPaid excess blocks) (hfee : calculateWithdrawalRequestFee excess = .ok fee)
    (hhead : head.toNat ≤ taken) (htail : tail.toNat ≤ taken)
    (hchk : Build.overflowChecks = true → taken + 16 * blocks.length < wordBound) :
    ∃ reports contract queue,
      runBlocks WithdrawalRequestContract.runBlock ⟨[], excess, fee⟩ blocks =
        .ok (reports, contract) ∧
      runBlocks WithdrawalRequestQueue.runBlock ⟨head, tail, 0, excess, []⟩
        (blocks.map (·.map Prod.fst)) = .ok (reports, queue) := by
  induction blocks generalizing excess head tail fee taken with
  | nil => exact ⟨[], _, _, rfl, rfl⟩
  | cons block blocks ih =>
    obtain ⟨⟨fee₀, hfee₀, hpaid⟩, hrest⟩ := h
    obtain rfl : fee₀ = fee := Except.ok.inj (hfee₀.symm.trans hfee)
    obtain ⟨fee', hfee'⟩ := hrest.fee
    have hbd := lt_of_fee hfee
    have hfst : Build.overflowChecks = true → taken + 16 < wordBound := by
      intro hbld
      have hall := hchk hbld
      rw [List.length_cons] at hall
      omega
    have hcont := WithdrawalRequestContract.runBlock_eq hbd hpaid hfee'
    rw [← List.length_map Prod.fst] at hfee' hrest
    obtain ⟨head', tail', hhead', htail', hqueu⟩ :=
      WithdrawalRequestQueue.runBlock_eq hbd hhead htail hfst hfee'
    rw [List.length_map] at hfee' hrest hqueu
    have hlat : Build.overflowChecks = true → taken + 16 + 16 * blocks.length < wordBound := by
      intro hbld
      have hall := hchk hbld
      rw [List.length_cons] at hall
      omega
    obtain ⟨reports, contract, queue, hcon, hque⟩ := ih hrest hfee' hhead' htail' hlat
    refine ⟨blockReport (block.map Prod.fst) (nextExcess excess block.length) fee' :: reports,
      contract, queue, ?_, ?_⟩
    · exact Except.bind_eq_ok.mpr ⟨_, hcont, Except.bind_eq_ok.mpr ⟨_, hcon, rfl⟩⟩
    · exact Except.bind_eq_ok.mpr ⟨_, hqueu, Except.bind_eq_ok.mpr ⟨_, hque, rfl⟩⟩

/-- Both stores return from every sequence of blocks with the same reports, as long as the fee can
be computed and is paid. -/
theorem request_stores_agree (blocks : List PaidBlock) (h : FeesPaid 0 blocks)
    (hchk : Build.overflowChecks = true → 16 * blocks.length < wordBound) :
    ∃ reports contract queue,
      runBlocks WithdrawalRequestContract.runBlock .new blocks = .ok (reports, contract) ∧
      runBlocks WithdrawalRequestQueue.runBlock .new (blocks.map (·.map Prod.fst)) =
        .ok (reports, queue) := by
  have hfee : calculateWithdrawalRequestFee 0 = .ok (.ofU64 minWithdrawalRequestFee) := by
    decide +kernel
  refine runBlocks_agree h hfee (le_refl 0) (le_refl 0) ?_
  rwa [zero_add]

end

section

local instance : Build := ⟨true⟩

def samplePaid (amount fee : U256) : WithdrawalRequest × U256 :=
  (⟨Address.zero, .replicate 48 0, amount⟩, fee)

theorem request_stores_agree_sample : ∃ reports contract queue,
    runBlocks WithdrawalRequestContract.runBlock .new
      [[samplePaid 1 1, samplePaid 2 1, samplePaid 3 4], []] = .ok (reports, contract) ∧
    runBlocks WithdrawalRequestQueue.runBlock .new
      ([[samplePaid 1 1, samplePaid 2 1, samplePaid 3 4], []].map (·.map Prod.fst)) =
        .ok (reports, queue) := by
  have hpaid : FeesPaid 0 [[samplePaid 1 1, samplePaid 2 1, samplePaid 3 4], []] :=
    ⟨⟨1, by decide +kernel, by decide +kernel⟩, ⟨1, by decide +kernel, List.forall_mem_nil _⟩,
      1, by decide +kernel⟩
  exact request_stores_agree _ hpaid fun _ => by decide

end

end EthereumRust.Consensus
