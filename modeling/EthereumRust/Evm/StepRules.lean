import EthereumRust.Evm.Step

/-!
# Rules for arms

The rules for the methods that arms are made of, first as weakest preconditions, then for
`Completes`. Throughout, `Ready op s` gives the words that the arm pops and the room for the one
it pushes, so the error branches of `pop` and `push` are dead.
-/

namespace EthereumRust.Evm
open Rust List

variable {l : List U256}

theorem exists_cons_of_le (h : n + 1 ≤ l.length) : ∃ a rest, l = a :: rest ∧ n ≤ rest.length := by
  cases l with
  | nil => simp at h
  | cons a rest => exact ⟨a, rest, rfl, Nat.le_of_succ_le_succ h⟩

theorem exists_two_of_le (h : n + 2 ≤ l.length) :
    ∃ a b rest, l = a :: b :: rest ∧ n ≤ rest.length := by
  obtain ⟨a, rest₁, rfl, hlen₁⟩ := exists_cons_of_le h
  obtain ⟨b, rest, rfl, hlen⟩ := exists_cons_of_le hlen₁
  exact ⟨a, b, rest, rfl, hlen⟩

theorem exists_three_of_le (h : n + 3 ≤ l.length) :
    ∃ a b c rest, l = a :: b :: c :: rest ∧ n ≤ rest.length := by
  obtain ⟨a, b, rest₁, rfl, hlen₁⟩ := exists_two_of_le h
  obtain ⟨c, rest, rfl, hlen⟩ := exists_cons_of_le hlen₁
  exact ⟨a, b, c, rest, rfl, hlen⟩

namespace Interpreter
open Method

variable {s : Interpreter S}

theorem balanced_of_append (popped pushed : List U256)
    (hs : s.stack.data = popped ++ rest) (hin : popped.length = op.stackInputs)
    (hout : pushed.length = op.stackOutputs) : Balanced op s ⟨pushed ++ rest⟩ := by
  rw [Balanced, hs, length_append, length_append]
  omega

theorem sat_consume : (consume amt).Sat s Q E P ↔
      if s.gas.Affords amt then Q () { s with gas := s.gas.spend amt }
      else E .OutOfGas s := by
  unfold Sat consume
  rw [Gas.consume_eq]
  by_cases h : s.gas.Affords amt
  · simp only [if_pos h]
  · simp only [if_neg h]

theorem sat_pop {Q : U256 → Interpreter S → Prop}
    (hs : s.stack.data = a :: rest) (hQ : Q a { s with stack := ⟨rest⟩ }) : pop.Sat s Q E P := by
  unfold Sat pop Stack.pop
  rw [hs]
  exact hQ

theorem sat_onStack {stack : Stack} (h : f s.stack = .ok stack) (hQ : Q () { s with stack }) :
    (onStack f).Sat s Q E P := by
  unfold Sat onStack
  rw [h]
  exact hQ

theorem sat_push (hroom : s.stack.data.length < STACK_LIMIT)
    (hQ : Q () { s with stack := ⟨v :: s.stack.data⟩ }) : (push v).Sat s Q E P :=
  sat_onStack (if_neg (not_le.mpr hroom)) hQ

theorem sat_checkStack :
    (checkStack f).Sat s Q E P ↔ match f s.stack with | .ok _ => Q () s | .error e => E e s := by
  unfold Sat checkStack
  cases f s.stack <;> rfl

theorem sat_advance (hQ : Q () { s with pc := s.pc + 1 })
    (hP : s.context.code.length ≤ s.pc → P .arithmetic) : advance.Sat s Q E P := by
  unfold advance
  rw [sat_bind, sat_read, addUsize]
  by_cases hpc : s.pc + 1 < wordBound
  · rw [if_pos hpc]
    exact hQ
  · rw [if_neg hpc]
    have hcode := s.context.code_length
    apply hP
    simp only [isizeMax, wordBound] at hcode hpc
    omega

theorem sat_onMemory (hok : ∀ memory, f s.memory = .ok memory → Q () { s with memory })
    (herr : ∀ e, f s.memory = .error e → E e s) : (onMemory f).Sat s Q E P := by
  unfold Sat onMemory
  cases hf : f s.memory with
  | ok memory => exact hok memory hf
  | error e => exact herr e hf

theorem sat_jump
    (hQ : dest < s.context.code.length → s.context.code.getD dest 0 = Opcode.jumpdestByte →
      Q () { s with pc := dest }) (hE : E (.InvalidJump dest) s) : (jump dest).Sat s Q E P := by
  unfold jump
  rw [sat_bind, sat_read]
  split
  · exact hE
  · rename_i h
    have hlt : dest < s.context.code.length := by
      by_contra hge
      exact h (.inl (Nat.le_of_not_lt hge))
    have hbyte : s.context.code.getD dest 0 = Opcode.jumpdestByte := by
      by_contra hne
      exact h (.inr hne)
    exact hQ hlt hbyte

variable {memory : Memory} {off : Nat}

theorem memory_set_error (h : memory.set off data = .error e) : e = .InvalidMemoryAccess := by
  unfold Memory.set at h
  split at h
  · cases h
  · split at h
    · cases h
      rfl
    · cases h

theorem memory_setByte_error (h : memory.setByte off byte = .error e) :
    e = .InvalidMemoryAccess := by
  unfold Memory.setByte at h
  split at h
  · cases h
    rfl
  · cases h

theorem getSlice_spec (off : U256) :
    (∃ bytes, getSlice data off size = .ok bytes ∧ bytes.length = size.toNat ∧
      ¬SliceOverflows data off size) ∨
    ((∃ p, getSlice data off size = .error p) ∧ SliceOverflows data off size) := by
  unfold getSlice SliceOverflows
  by_cases hzero : size.toNat = 0
  · rw [if_pos (U256.isZero_iff.mpr hzero)]
    exact .inl ⟨[], rfl, hzero.symm, fun h => h.1 hzero⟩
  rw [if_neg (mt U256.isZero_iff.mp hzero)]
  by_cases hoff : wordBound ≤ off.toNat
  · rw [U256.asUsize_of_le hoff]
    exact .inr ⟨⟨_, rfl⟩, hzero, .inl hoff⟩
  rw [U256.asUsize_of_lt (Nat.lt_of_not_le hoff)]
  by_cases hsize : wordBound ≤ size.toNat
  · rw [U256.asUsize_of_le hsize]
    exact .inr ⟨⟨_, rfl⟩, hzero, .inr (.inl hsize)⟩
  rw [U256.asUsize_of_lt (Nat.lt_of_not_le hsize)]
  by_cases hin : off.toNat ≥ data.length
  · refine .inl ⟨replicate size.toNat 0, ?_, length_replicate, ?_⟩
    · exact if_pos hin
    · intro h
      omega
  · by_cases hsum : off.toNat + size.toNat < wordBound
    · let stop := min (off.toNat + size.toNat) data.length
      refine .inl ⟨resize ((data.take stop).drop off.toNat) size.toNat, ?_, length_resize _, ?_⟩
      · change (if _ then _ else _) = _
        rw [if_neg hin, addUsize_of_lt hsum]
        rfl
      · intro h
        omega
    · refine .inr ⟨⟨.arithmetic, ?_⟩, hzero, .inr (.inr ⟨by omega, by omega⟩)⟩
      change (if _ then _ else _) = _
      rw [if_neg hin, addUsize, if_neg hsum]
      rfl

theorem Faulted.of_frame {stack : Stack} {gas : Gas} (hgas : s.gas.Grows gas)
    (hstk : stack.data.length ≤ s.stack.data.length) (hu : e ≠ .StackUnderflow)
    (ho : e ≠ .StackOverflow) : Faulted s e { s with stack, gas } :=
  ⟨rfl, hgas, hstk, hu, ho⟩

section
variable [StateDB S] {gas : Gas} {stack : Stack} {rest : List U256}

theorem completes_charge (hgas : s.gas.Grows gas) (hstk : stack.data.length ≤ s.stack.data.length)
    (hpoor : ¬gas.Affords cost → ¬s.Overflows op)
    (hrich : gas.Affords cost → Completes op s { s with stack, gas := gas.spend cost } (f ())) :
    Completes op s { s with stack, gas } (consume cost >>= f) := by
  constructor
  rw [sat_bind, sat_consume]
  by_cases h : gas.Affords cost
  · rw [if_pos h]
    exact (hrich h).sat
  · rw [if_neg h]
    exact ⟨.of_frame hgas hstk (by decide) (by decide), hpoor h⟩

theorem completes_pop {f : U256 → Exec S Unit} (hs : stack.data = a :: rest)
    (h : Completes op s { s with stack := ⟨rest⟩, gas } (f a)) :
    Completes op s { s with stack, gas } (pop >>= f) := by
  constructor
  rw [sat_bind]
  exact sat_pop hs h.sat

variable {f : α → Exec S Unit}

theorem completes_checked {c : Checked α} (hok : ∀ a, c = .ok a → Completes op s s₁ (f a))
    (hpan : ∀ p, c = .error p → s.Overflows op ∨ s.context.code.length ≤ s.pc) :
    Completes op s s₁ (liftM c >>= f) := by
  constructor
  cases c with
  | ok a => exact (hok a rfl).sat
  | error p => exact hpan p rfl

theorem completes_value (h : Completes op s s₁ (f a)) :
    Completes op s s₁ (liftM (Except.ok a : Checked α) >>= f) :=
  ⟨h.sat⟩

theorem completes_panic (h : s.Overflows op) :
    Completes op s s₁ (liftM (Except.error p : Checked α) >>= f) :=
  ⟨.inl h⟩

theorem completes_asUsize {f : Nat → Exec S Unit} {x : U256}
    (hov : wordBound ≤ x.toNat → s.Overflows op)
    (hok : x.toNat < wordBound → Completes op s s₁ (f x.toNat)) :
    Completes op s s₁ (liftM x.asUsize >>= f) := by
  by_cases h : x.toNat < wordBound
  · rw [U256.asUsize_of_lt h]
    exact completes_value (hok h)
  · rw [U256.asUsize_of_le (Nat.le_of_not_lt h)]
    exact completes_panic (hov (Nat.le_of_not_lt h))

theorem completes_read (hg : g s₁ = a) (h : Completes op s s₁ (f a)) :
    Completes op s s₁ (read g >>= f) := by
  constructor
  rw [sat_bind, sat_read, hg]
  exact h.sat

theorem completes_advance (hkind : op.kind = .plain ∨ op = .JUMPI ∧ (s.operand 1).toNat = 0)
    (hgas : s.gas.Spent amt gas) (hstk : Balanced op s stack) (hno : ¬s.Overflows op) :
    Completes op s { s with stack, gas } advance :=
  ⟨sat_advance ⟨.plain hkind hgas hstk, hno⟩ .inr⟩

theorem completes_push (hkind : op.kind = .plain) (hgas : s.gas.Spent amt gas)
    (hstk : Balanced op s ⟨v :: rest⟩) (hroom : rest.length < STACK_LIMIT) (hno : ¬s.Overflows op) :
    Completes op s { s with stack := ⟨rest⟩, gas } (do push v; advance) := by
  constructor
  rw [sat_bind]
  exact sat_push hroom (completes_advance (.inl hkind) hgas hstk hno).sat

theorem completes_write {f : Memory → Except EvmError Memory} (hkind : op.kind = .write)
    (hgas : s.gas.Spent (s.writeCharge op) gas) (hstk : Balanced op s stack)
    (hlen : stack.data.length ≤ s.stack.data.length)
    (hok : ∀ memory, f s.memory = .ok memory →
      memory.len = max s.memory.len (s.writeEnd op) ∧ s.writeEnd op < wordBound)
    (herr : ∀ e, f s.memory = .error e → e = .InvalidMemoryAccess) (hno : ¬s.Overflows op) :
    Completes op s { s with stack, gas } (do onMemory f; advance) := by
  constructor
  rw [sat_bind]
  refine sat_onMemory ?_ ?_
  · intro memory hf
    obtain ⟨hmem, hend⟩ := hok memory hf
    exact sat_advance ⟨.write hkind hgas hstk hmem hend, hno⟩ .inr
  · intro e hf
    cases herr e hf
    exact ⟨.of_frame hgas.grows hlen (by decide) (by decide), hno⟩

end

end Interpreter

end EthereumRust.Evm
