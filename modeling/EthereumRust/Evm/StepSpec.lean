import EthereumRust.Evm.StepFamilies

/-!
# Every arm meets its specification

One lemma for each arm with a body of its own, then `arm_spec` for the dispatch and
`executeOpcode_spec` for the arm behind its prologue.
-/

namespace EthereumRust.Evm

open Rust List

namespace Interpreter
open Method

variable {S : Type} {s : Interpreter S}

section
variable [StateDB S]

theorem exp_spec (hrdy : Ready .EXP s) : Completes .EXP s s exp := by
  obtain ⟨exponent, base, rest, he, -⟩ := exists_two_of_le hrdy.inputs
  have hroom := hrdy.room
  have hno : ¬s.Overflows .EXP := id
  simp only [he, length_cons] at hroom
  refine completes_pop he ?_
  refine completes_charge (.refl _) (by simp [he]) (fun _ => hno) fun hgas => ?_
  refine completes_pop rfl (completes_push rfl hgas.spent ?_ (by omega) hno)
  exact balanced_of_append [exponent, base] [_] he rfl rfl

theorem keccak_spec [Crypto] (hrdy : Ready .KECCAK256 s) : Completes .KECCAK256 s s keccak := by
  obtain ⟨off, size, rest, ho, -⟩ := exists_two_of_le hrdy.inputs
  have hroom := hrdy.room
  simp only [ho, length_cons] at hroom
  have hov : s.Overflows .KECCAK256 ↔ wordBound ≤ size.toNat + 31 ∨
      s.gas.Affords (GasCost.keccakCharge size) ∧ wordBound ≤ off.toNat := by
    simp [Overflows, operand, ho]
  refine completes_pop ho (completes_pop rfl ?_)
  by_cases hsize : wordBound ≤ size.toNat + 31
  · obtain ⟨p, hp⟩ := GasCost.keccak256GasCost_of_le hsize
    rw [hp]
    exact completes_panic (hov.mpr (.inl hsize))
  rw [GasCost.keccak256GasCost_of_lt (Nat.lt_of_not_le hsize)]
  refine completes_value ?_
  refine completes_charge (.refl _) (by simp only [ho, length_cons]; omega) ?_ fun hgas => ?_
  · intro hpoor hv
    rcases hov.mp hv with h | h
    · exact hsize h
    · exact hpoor h.1
  refine completes_asUsize (fun h => hov.mpr (.inr ⟨hgas, h⟩)) fun hoff => ?_
  refine completes_asUsize (fun h => absurd h (by omega)) fun _ => ?_
  refine completes_read rfl (completes_push rfl hgas.spent ?_ (by omega) ?_)
  · exact balanced_of_append [off, size] [_] ho rfl rfl
  · intro hv
    rcases hov.mp hv with h | h
    · exact hsize h
    · exact not_le.mpr hoff h.2

theorem extcodecopy_spec (hrdy : Ready .EXTCODECOPY s) :
    Completes .EXTCODECOPY s s extcodecopy := by
  obtain ⟨addr, m, d, rest₃, ha, hlen₃⟩ := exists_three_of_le hrdy.inputs
  obtain ⟨size, rest, rfl, -⟩ := exists_cons_of_le hlen₃
  have hov : s.Overflows .EXTCODECOPY ↔ s.gas.Affords GasCost.EXTCODECOPY ∧
      (wordBound ≤ size.toNat + 31 ∨
        (s.gas.spend GasCost.EXTCODECOPY).Affords (GasCost.copyCharge size) ∧
          ((∃ acct, StateDB.getAccount s.state (addressFromU256 addr) = some acct ∧
              SliceOverflows acct.code d size) ∨ wordBound ≤ m.toNat)) := by
    simp [Overflows, operand, ha]
  have hend : s.writeEnd .EXTCODECOPY =
      if size.toNat = 0 then 0 else m.toNat + size.toNat := by
    simp [writeEnd, operand, ha]
  have hcha : s.writeCharge .EXTCODECOPY =
      GasCost.EXTCODECOPY.toNat + (GasCost.copyCharge size).toNat := by
    simp [writeCharge, operand, ha]
  have hrest : rest.length ≤ s.stack.data.length := by
    simp only [ha, length_cons]
    omega
  have hbal : Balanced .EXTCODECOPY s ⟨rest⟩ :=
    balanced_of_append [addr, m, d, size] [] ha rfl rfl
  refine completes_pop ha (completes_pop rfl (completes_pop rfl (completes_pop rfl ?_)))
  refine completes_charge (.refl _) hrest (fun hpoor hv => hpoor (hov.mp hv).1) fun hgas => ?_
  rw [and_iff_right hgas] at hov
  -- once both charges are paid, what is left to overflow is the slice of the code and the cast
  refine completes_payCopy hgas.spent.grows hrest hov fun hsize hgas₂ hov => ?_
  have hspe := hgas.spent.trans hgas₂.spent
  rw [← hcha] at hspe
  refine completes_read rfl ?_
  cases hacc : StateDB.getAccount s.state (addressFromU256 addr) with
  | some acct =>
    refine completes_sliceCopy rfl hspe hbal hrest hend ?_
    rw [hov, hacc]
    simp
  | none =>
    have hcast : size.asUsize = .ok size.toNat := U256.asUsize_of_lt (by omega)
    simp only [hcast]
    refine completes_value (completes_copy rfl hspe hbal hrest
      (length_replicate (n := size.toNat)) hend ?_)
    rw [hov, hacc]
    simp

theorem returndatacopy_spec (hrdy : Ready .RETURNDATACOPY s) :
    Completes .RETURNDATACOPY s s returndatacopy := by
  obtain ⟨m, d, size, rest, hm, -⟩ := exists_three_of_le hrdy.inputs
  have hov : s.Overflows .RETURNDATACOPY ↔ wordBound ≤ size.toNat + 31 ∨
      s.gas.Affords (GasCost.copyCharge size) ∧
        d.saturatingAdd size ≤ .ofUsize s.returnData.length ∧
        (SliceOverflows s.returnData d size ∨ wordBound ≤ m.toNat) := by
    simp [Overflows, operand, hm]
  have hend : s.writeEnd .RETURNDATACOPY =
      if size.toNat = 0 then 0 else m.toNat + size.toNat := by
    simp [writeEnd, operand, hm]
  have hcha : s.writeCharge .RETURNDATACOPY = (GasCost.copyCharge size).toNat := by
    simp [writeCharge, operand, hm]
  have hrest : rest.length ≤ s.stack.data.length := by
    simp only [hm, length_cons]
    omega
  refine completes_pop hm (completes_pop rfl (completes_pop rfl ?_))
  refine completes_payCopy (.refl _) hrest hov fun _ hgas hov => ?_
  refine completes_read rfl ?_
  by_cases hbd : d.saturatingAdd size > .ofUsize s.returnData.length
  · rw [if_pos hbd]
    refine ⟨⟨.of_frame hgas.spent.grows hrest (by decide) (by decide), ?_⟩⟩
    exact fun hv => BitVec.not_le.mpr hbd (hov.mp hv).1
  rw [if_neg hbd]
  have hle := BitVec.not_lt.mp hbd
  refine completes_sliceCopy rfl (hcha ▸ hgas.spent) ?_ hrest hend ?_
  · exact balanced_of_append [m, d, size] [] hm rfl rfl
  · rw [hov, and_iff_right hle]

theorem mstore_spec (hrdy : Ready .MSTORE s) : Completes .MSTORE s s mstore :=
  storeOp_spec hrdy rfl rfl rfl rfl rfl Iff.rfl Memory.len_setU256 memory_set_error

theorem mstore8_spec (hrdy : Ready .MSTORE8 s) : Completes .MSTORE8 s s mstore8 :=
  storeOp_spec hrdy rfl rfl rfl rfl rfl Iff.rfl Memory.len_setByte memory_setByte_error

variable {op : Opcode}

theorem completes_nonstatic (hsta : s.context.isStatic = true → ¬s.Overflows op)
    (h : s.context.isStatic = false → Completes op s s m) : Completes op s s (do
      if ← read (·.context.isStatic) then fail .StaticCallStateModification else m) := by
  refine completes_read rfl ?_
  cases hctx : s.context.isStatic with
  | true => exact ⟨⟨⟨rfl, .refl _, le_refl _, by decide, by decide⟩, hsta hctx⟩⟩
  | false => exact h hctx

theorem sstore_spec (hrdy : Ready .SSTORE s) : Completes .SSTORE s s sstore := by
  obtain ⟨key, value, rest, hk, -⟩ := exists_two_of_le hrdy.inputs
  have hno : ¬s.Overflows .SSTORE := id
  have hent : s.storeEntry .SSTORE = some (.ofU256 key, .ofU256 value) := by
    simp [storeEntry, operand, hk]
  refine completes_nonstatic (fun _ => hno) fun hsta => ?_
  refine completes_pop hk (completes_pop rfl ?_)
  refine completes_charge (.refl _) ?_ (fun _ => hno) fun hgas => ?_
  · simp only [hk, length_cons]
    omega
  constructor
  refine sat_advance ⟨.store hsta hent hgas.spent ?_, hno⟩ .inr
  exact balanced_of_append [key, value] [] hk rfl rfl

theorem completes_jump {stack : Stack} {gas : Gas} {amt : Nat}
    (hdest : s.operand 0 = dest) (hjum : Jumps op s) (hgas : s.gas.Spent amt gas)
    (hamo : GasCost.MID.toNat ≤ amt) (hstk : Balanced op s stack)
    (hlen : stack.data.length ≤ s.stack.data.length)
    (hov : s.Overflows op ↔ wordBound ≤ dest.toNat) :
    Completes op s { s with stack, gas } (do let dest ← dest.asUsize; jump dest) := by
  refine completes_asUsize hov.mpr fun hlt => ?_
  have hno : ¬s.Overflows op := fun hv => not_le.mpr hlt (hov.mp hv)
  subst hdest
  refine ⟨sat_jump ?_ ?_⟩
  · intro hcode hbyte
    exact ⟨.jump hjum hcode hbyte hgas hamo hstk, hno⟩
  · refine ⟨.of_frame hgas.grows hlen ?_ ?_, hno⟩ <;> exact EvmError.noConfusion

theorem jumpOp_spec (hrdy : Ready .JUMP s) : Completes .JUMP s s jumpOp := by
  obtain ⟨dest, rest, hd, -⟩ := exists_cons_of_le hrdy.inputs
  have hdest : s.operand 0 = dest := by simp [operand, hd]
  have hov : s.Overflows .JUMP ↔ s.gas.Affords GasCost.MID ∧ wordBound ≤ dest.toNat := by
    rw [← hdest]
    rfl
  refine completes_charge (.refl _) (le_refl _) (fun h hv => h (hov.mp hv).1) fun hgas => ?_
  refine completes_pop hd ?_
  refine completes_jump hdest (.inl rfl) hgas.spent (le_refl _) ?_ ?_ ?_
  · exact balanced_of_append [dest] [] hd rfl rfl
  · simp only [hd, length_cons]
    omega
  · rw [hov]
    exact and_iff_right hgas

theorem jumpi_spec (hrdy : Ready .JUMPI s) : Completes .JUMPI s s jumpi := by
  obtain ⟨dest, cond, rest, hd, -⟩ := exists_two_of_le hrdy.inputs
  have hdest : s.operand 0 = dest := by simp [operand, hd]
  have hcond : s.operand 1 = cond := by simp [operand, hd]
  have hov : s.Overflows .JUMPI ↔
      s.gas.Affords GasCost.HIGH ∧ cond.toNat ≠ 0 ∧ wordBound ≤ dest.toNat := by
    rw [← hdest, ← hcond]
    rfl
  have hbal : Balanced .JUMPI s ⟨rest⟩ := balanced_of_append [dest, cond] [] hd rfl rfl
  refine completes_charge (.refl _) (le_refl _) (fun h hv => h (hov.mp hv).1) fun hgas => ?_
  refine completes_pop hd (completes_pop rfl ?_)
  by_cases hzero : cond.isZero = true
  · rw [if_pos hzero]
    have hnat : cond.toNat = 0 := U256.isZero_iff.mp hzero
    refine completes_advance (.inr ⟨rfl, hcond ▸ hnat⟩) hgas.spent hbal ?_
    intro hv
    exact (hov.mp hv).2.1 hnat
  · rw [if_neg hzero]
    have hnat : cond.toNat ≠ 0 := mt U256.isZero_iff.mpr hzero
    have hjum : Jumps .JUMPI s := .inr ⟨rfl, hcond ▸ hnat⟩
    refine completes_jump hdest hjum hgas.spent (by decide) hbal ?_ ?_
    · simp only [hd, length_cons]
      omega
    · rw [hov]
      exact ⟨fun h => h.2.2, fun h => ⟨hgas, hnat, h⟩⟩

theorem pushBytesOp_spec (hrdy : Ready (.PUSH n) s) :
    Completes (.PUSH n) s s (pushBytesOp (.PUSH n)) := by
  have hno : ¬s.Overflows (.PUSH n) := id
  have hroom : s.stack.data.length < STACK_LIMIT := hrdy.room
  have hcode := s.context.code_length
  simp only [isizeMax] at hcode
  refine completes_charge (.refl _) (le_refl _) (fun _ => hno) fun hgas => ?_
  refine completes_value (completes_read rfl (completes_read rfl ?_))
  by_cases hpc : s.context.code.length ≤ s.pc
  · refine completes_checked ?_ fun _ _ => .inr hpc
    intro start hst
    refine completes_checked ?_ fun _ _ => .inr hpc
    intro stop _
    refine completes_checked ?_ fun _ _ => .inr hpc
    intro data hdata
    have hst : start = s.pc + 1 := by
      unfold addUsize at hst
      split at hst <;> cases hst
      rfl
    unfold slice at hdata
    split at hdata
    · rename_i hle
      have := hle.1
      simp only [hst] at this
      omega
    · cases hdata
  · have hst : s.pc + 1 < wordBound := by
      simp only [wordBound]
      omega
    have hstop : s.pc + 1 + (n + 1) < wordBound := by
      simp only [wordBound]
      omega
    have hsl : slice s.context.code (s.pc + 1)
        (min (s.pc + 1 + (n + 1)) s.context.code.length) = .ok _ :=
      if_pos ⟨by omega, by omega⟩
    rw [addUsize_of_lt hst]
    refine completes_value ?_
    rw [addUsize_of_lt hstop]
    refine completes_value ?_
    simp only [hsl]
    refine completes_value ⟨?_⟩
    rw [sat_bind]
    exact sat_push hroom ⟨.push rfl hgas.spent rfl, hno⟩

omit [StateDB S] in
theorem sat_popTopics {E : EvmError → Interpreter S → Prop} {P : Panic → Prop}
    (hs : s.stack.data = topics ++ rest)
    (hQ : Q (topics.map H256.ofU256) { s with stack := ⟨rest⟩ }) :
    (popTopics topics.length).Sat s Q E P := by
  induction topics generalizing s Q with
  | nil =>
    have : s.stack = ⟨rest⟩ := congrArg Stack.mk hs
    rw [← this] at hQ
    exact hQ
  | cons topic topics ih =>
    change (pop >>= fun topic => popTopics topics.length >>= fun topics =>
      pure (H256.ofU256 topic :: topics) : Exec S (List H256)).Sat s Q E P
    rw [sat_bind]
    refine sat_pop hs ?_
    rw [sat_bind]
    exact ih rfl hQ

theorem logOp_spec (hrdy : Ready (.LOG n) s) : Completes (.LOG n) s s (logOp n) := by
  obtain ⟨off, size, rest₂, ho, hlen₂⟩ := exists_two_of_le hrdy.inputs
  -- the topics are the next words of the stack
  obtain ⟨topics, rest, rfl, htop⟩ : ∃ topics rest, rest₂ = topics ++ rest ∧
      topics.length = n :=
    ⟨rest₂.take n, rest₂.drop n, (take_append_drop _ _).symm, length_take_of_le hlen₂⟩
  have hov : s.Overflows (.LOG n) ↔ s.context.isStatic = false ∧ (wordBound ≤ size.toNat ∨
      s.gas.Affords (GasCost.logCharge n size) ∧ wordBound ≤ off.toNat) := by
    simp [Overflows, operand, ho]
  refine completes_nonstatic ?_ fun hsta => ?_
  · intro hctx hv
    have := (hov.mp hv).1
    rw [hctx] at this
    cases this
  refine completes_pop ho (completes_pop rfl ⟨?_⟩)
  rw [sat_bind, ← htop]
  refine sat_popTopics rfl (Completes.sat ?_)
  rw [htop]
  have hrest : rest.length ≤ s.stack.data.length := by
    simp only [ho, length_cons, length_append]
    omega
  by_cases hsize : wordBound ≤ size.toNat
  · rw [GasCost.logGasCost_of_le hsize]
    exact completes_panic (hov.mpr ⟨hsta, .inl hsize⟩)
  rw [GasCost.logGasCost_of_lt (Nat.lt_of_not_le hsize)]
  refine completes_value (completes_charge (.refl _) hrest ?_ fun hgas => ?_)
  · intro hpoor hv
    rcases (hov.mp hv).2 with h | h
    · exact hsize h
    · exact hpoor h.1
  refine completes_asUsize (fun h => hov.mpr ⟨hsta, .inr ⟨hgas, h⟩⟩) fun hoff => ?_
  refine completes_asUsize (fun h => absurd h hsize) fun _ => ⟨?_⟩
  refine sat_advance ⟨.log hsta ?_ hgas.spent ?_, ?_⟩ .inr
  · simp [logEntry, operand, ho, ← htop]
  · exact balanced_of_append (off :: size :: topics) [] ho (congrArg (· + 2) htop) rfl
  · intro hv
    rcases (hov.mp hv).2 with h | h
    · exact hsize h
    · exact not_le.mpr hoff h.2

theorem onStack_spec {stack : Stack}
    (hkind : op.kind = .plain) (hf : f s.stack = .ok stack) (hstk : Balanced op s stack)
    (hno : ¬s.Overflows op) : Completes op s s (do consume cost; onStack f; advance) := by
  refine completes_charge (.refl _) (le_refl _) (fun _ => hno) fun hgas => ⟨?_⟩
  rw [sat_bind]
  exact sat_onStack hf (completes_advance (.inl hkind) hgas.spent hstk hno).sat

theorem overflows_iff_of_ok (hno : ¬s.Overflows op) :
    s.Overflows op ↔ c ∧ ∃ p, (Except.ok v : Checked U256) = .error p := by
  refine iff_of_false hno ?_
  intro h
  exact not_panics_ok h.2

theorem blockhash_panics_iff :
    (∃ p, blockhash block x = .error p) ↔
      x < block.number ∧ block.number - x ≤ 256 ∧ wordBound ≤ x.toNat := by
  unfold blockhash
  by_cases hrng : x ≥ block.number ∨ block.number - x > 256
  · rw [if_pos hrng]
    refine iff_of_false not_panics_ok ?_
    intro ⟨hlt, hle, _⟩
    rcases hrng with h | h
    · exact BitVec.not_lt.mpr h hlt
    · exact BitVec.not_le.mpr h hle
  · rw [if_neg hrng]
    rw [not_or] at hrng
    have hlt : x < block.number := BitVec.not_le.mp hrng.1
    have hle : block.number - x ≤ 256 := BitVec.not_lt.mp hrng.2
    by_cases hx : wordBound ≤ x.toNat
    · rw [U256.asUsize_of_le hx]
      exact ⟨fun _ => ⟨hlt, hle, hx⟩, fun _ => ⟨_, rfl⟩⟩
    · rw [U256.asUsize_of_lt (Nat.lt_of_not_le hx)]
      exact iff_of_false not_panics_ok fun h => hx h.2.2

theorem getSlice_panics_iff :
    (∃ p, (U256.fromBigEndian <$> getSlice data off size : Checked U256) = .error p) ↔
      SliceOverflows data off size := by
  rcases getSlice_spec off with ⟨bytes, hbs, -, hno⟩ | ⟨⟨p, hp⟩, hv⟩
  · rw [hbs]
    exact iff_of_false not_panics_ok hno
  · rw [hp]
    exact ⟨fun _ => hv, fun _ => ⟨p, rfl⟩⟩

theorem asUsize_panics_iff (x : U256) :
    (∃ p, (f <$> x.asUsize : Checked U256) = .error p) ↔ wordBound ≤ x.toNat := by
  by_cases hx : wordBound ≤ x.toNat
  · rw [U256.asUsize_of_le hx]
    exact ⟨fun _ => hx, fun _ => ⟨_, rfl⟩⟩
  · rw [U256.asUsize_of_lt (Nat.lt_of_not_le hx)]
    exact iff_of_false not_panics_ok hx

/-- Every arm does on a ready machine what `Completes` says. -/
theorem arm_spec [Crypto] (hrdy : Ready op s) : Completes op s s (arm op) := by
  cases op with
  | STOP =>
    exact ⟨.halt rfl rfl (le_refl _) fun _ => ExecutionStatus.noConfusion, id⟩
  | ADD | MUL | SUB | DIV | SDIV | MOD | SMOD | LT | GT | SLT | SGT | EQ | AND | OR | XOR | BYTE
  | SHL | SHR | SAR =>
    exact binaryOp_spec hrdy rfl rfl rfl (overflows_iff_of_ok id)
  | ADDMOD | MULMOD => exact ternaryOp_spec hrdy rfl rfl rfl id
  | EXP => exact exp_spec hrdy
  | SIGNEXTEND =>
    refine binaryOp_spec hrdy rfl rfl rfl ?_
    rw [signExtend_panics_iff]
    rfl
  | ISZERO | NOT => exact unaryOp_spec hrdy rfl rfl rfl fun _ _ => overflows_iff_of_ok id
  | KECCAK256 => exact keccak_spec hrdy
  | BALANCE | EXTCODESIZE | EXTCODEHASH | SLOAD =>
    exact queryOp_spec hrdy rfl rfl rfl fun _ _ => overflows_iff_of_ok id
  | BLOCKHASH =>
    refine queryOp_spec hrdy rfl rfl rfl fun _ _ => ?_
    rw [blockhash_panics_iff]
    rfl
  | CALLDATALOAD =>
    refine unaryOp_spec hrdy rfl rfl rfl fun _ _ => ?_
    rw [getSlice_panics_iff]
    rfl
  | MLOAD =>
    refine unaryOp_spec hrdy rfl rfl rfl fun _ _ => ?_
    rw [asUsize_panics_iff]
    rfl
  | ADDRESS | ORIGIN | CALLER | CALLVALUE | CALLDATASIZE | CODESIZE | GASPRICE | RETURNDATASIZE
  | COINBASE | TIMESTAMP | NUMBER | DIFFICULTY | GASLIMIT | CHAINID | SELFBALANCE | BASEFEE | PC
  | MSIZE | GAS | PUSH0 =>
    exact pushOp_spec hrdy rfl rfl rfl id
  | CALLDATACOPY | CODECOPY =>
    exact copyOp_spec hrdy rfl rfl rfl (fun _ _ => rfl) rfl rfl Iff.rfl
  | EXTCODECOPY => exact extcodecopy_spec hrdy
  | RETURNDATACOPY => exact returndatacopy_spec hrdy
  | POP =>
    obtain ⟨a, rest, ha, -⟩ := exists_cons_of_le hrdy.inputs
    refine completes_charge (.refl _) (le_refl _) (fun _ => id) fun hgas => ?_
    refine completes_pop ha (completes_advance (.inl rfl) hgas.spent ?_ id)
    exact balanced_of_append [a] [] ha rfl rfl
  | MSTORE => exact mstore_spec hrdy
  | MSTORE8 => exact mstore8_spec hrdy
  | SSTORE => exact sstore_spec hrdy
  | JUMP => exact jumpOp_spec hrdy
  | JUMPI => exact jumpi_spec hrdy
  | JUMPDEST =>
    refine completes_charge (.refl _) (le_refl _) (fun _ => id) fun hgas => ?_
    exact completes_advance (.inl rfl) hgas.spent rfl id
  | PUSH n => exact pushBytesOp_spec hrdy
  | DUP n =>
    have hin : (n : Nat) < s.stack.data.length := hrdy.inputs
    have hroom : s.stack.data.length + (n + 2 - (n + 1)) ≤ STACK_LIMIT := hrdy.room
    have hdup : s.stack.dup n = .ok ⟨s.stack.data[(n : Nat)] :: s.stack.data⟩ := by
      rw [Stack.dup, dif_pos hin, if_neg (by omega)]
    refine onStack_spec rfl hdup ?_ id
    change s.stack.data.length + 1 + (n + 1) = s.stack.data.length + (n + 2)
    omega
  | SWAP n =>
    have hin : (n : Nat) + 1 < s.stack.data.length := hrdy.inputs
    refine onStack_spec rfl (dif_pos hin) ?_ id
    rw [Balanced, length_set, length_set]
    rfl
  | LOG n => exact logOp_spec hrdy
  | RETURN | REVERT =>
    refine returnOp_spec hrdy rfl rfl ?_ Iff.rfl
    intro data used
    exact ⟨rfl, fun _ => ExecutionStatus.noConfusion⟩
  | BLOBHASH | BLOBBASEFEE | TLOAD | TSTORE | MCOPY | CREATE | CALL | CALLCODE | DELEGATECALL
  | CREATE2 | STATICCALL | INVALID | SELFDESTRUCT =>
    exact ⟨sat_advance ⟨.skip rfl, id⟩ .inr⟩

omit [StateDB S] in
theorem prologue_spec :
    (prologue op).Sat s (fun _ s' => s' = s ∧ Ready op s)
      (fun e s' => s' = s ∧ ¬Ready op s ∧ (e = .StackUnderflow ∨ e = .StackOverflow))
      (fun _ => False) := by
  unfold prologue
  rw [sat_bind, sat_checkStack, Stack.require]
  by_cases hin : s.stack.data.length < op.stackInputs
  · rw [if_pos hin]
    exact ⟨rfl, fun h => not_le.mpr hin h.inputs, .inl rfl⟩
  rw [if_neg hin]
  rw [sat_checkStack, Stack.limitCheck]
  by_cases hroom : s.stack.data.length + (op.stackOutputs - op.stackInputs) > STACK_LIMIT
  · rw [if_pos hroom]
    exact ⟨rfl, fun h => not_le.mpr hroom h.room, .inr rfl⟩
  · rw [if_neg hroom]
    exact ⟨rfl, Nat.le_of_not_lt hin, Nat.le_of_not_lt hroom⟩

theorem executeOpcode_spec [Crypto] :
    (executeOpcode op).Sat s
      (fun _ s' => Ready op s ∧ Effect op s s' ∧ ¬s.Overflows op)
      (fun e s' => ¬Ready op s ∧ s' = s ∨ Ready op s ∧ Faulted s e s' ∧ ¬s.Overflows op)
      (fun _ => Ready op s ∧ (s.Overflows op ∨ s.context.code.length ≤ s.pc)) := by
  unfold executeOpcode
  rw [sat_bind]
  refine prologue_spec.mono ?_ ?_ ?_
  · intro _ s' ⟨hs, hrdy⟩
    subst hs
    refine (arm_spec hrdy).sat.mono ?_ ?_ ?_
    · intro _ s'' h
      exact ⟨hrdy, h⟩
    · intro e s'' h
      exact .inr ⟨hrdy, h⟩
    · intro _ h
      exact ⟨hrdy, h⟩
  · intro e s' h
    exact .inl ⟨h.2.1, h.1⟩
  · intro _ h
    exact h.elim

end

end Interpreter

end EthereumRust.Evm
