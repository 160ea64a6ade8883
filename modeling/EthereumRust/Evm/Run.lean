import EthereumRust.Evm.StepSpec

/-!
# Runs of the interpreter

`Steps` and `Stops` say what one round of the loop of `run` can do, in terms of `Effect` and
`Faulted`. A machine is visited by a run when the loop begins a round in it or when the run returns
in it.
-/

namespace EthereumRust.Evm
open Rust List

theorem Opcode.kind_of_pushBytes {op : Opcode} (h : op.pushBytes = some n) : op.kind = .push := by
  unfold Opcode.pushBytes at h
  split at h
  · rfl
  · cases h

namespace Interpreter
open Loop

/-- The opcode at the counter. -/
def fetched (s : Interpreter S) : Option Opcode := (s.context.code[s.pc]?).bind Opcode.fromU8

theorem fetched_pc_lt {s : Interpreter S} (h : s.fetched = some op) :
    s.pc < s.context.code.length := by
  obtain ⟨byte, hbyte, -⟩ := Option.bind_eq_some_iff.mp h
  exact (List.getElem?_eq_some_iff.mp hbyte).1

variable [StateDB S]

structure Steps (op : Opcode) (s s' : Interpreter S) : Prop where
  fetched : s.fetched = some op
  ready : Ready op s
  effect : Effect op s s'
  no_overflow : ¬s.Overflows op
  running : s'.result = none

inductive Stops (s : Interpreter S) : ExecutionResult → Interpreter S → Prop where
  | ended : s.context.code.length ≤ s.pc →
    Stops s (s.result.getD (.success [] s.gas.used)) { s with result := none }
  | undefined {byte : UInt8} : s.fetched = none →
    Stops s (.halt (.InvalidOpcode byte) s.gas.used) s
  | halted {op : Opcode} {r : ExecutionResult} {s₁ : Interpreter S} : s.fetched = some op →
    Ready op s → Effect op s s₁ → s₁.result = some r → Stops s r { s₁ with result := none }
  | refused {op : Opcode} {e : EvmError} : s.fetched = some op → ¬Ready op s →
    Stops s (s.handleError e) s
  | faulted {op : Opcode} {e : EvmError} {s₁ : Interpreter S} : s.fetched = some op →
    Ready op s → Faulted s e s₁ → Stops s (s₁.handleError e) s₁

def Panics (s : Interpreter S) : Prop :=
  ∃ op, s.fetched = some op ∧ Ready op s ∧ s.Overflows op

variable [Crypto] {s s' : Interpreter S}

theorem turn_of_fetched (h : s.fetched = some op) : s.turn = afterOpcode (executeOpcode op s) := by
  have hpc := fetched_pc_lt h
  unfold fetched at h
  rw [getElem?_eq_getElem hpc, Option.bind_some] at h
  simp only [turn, dif_pos hpc, h]

theorem turn_eq_next (hf : s.fetched = some op)
    (hexec : executeOpcode op s = .ok () s') (hrun : s'.result = none) : s.turn = .next s' := by
  rw [turn_of_fetched hf, hexec, afterOpcode, hrun]
  rfl

theorem turn_of_not_fetched (h : s.fetched = none) :
    ∃ r s', s.turn = .done (.ok r s') ∧ Stops s r s' := by
  by_cases hpc : s.pc < s.context.code.length
  · have hbyte := h
    unfold fetched at hbyte
    rw [getElem?_eq_getElem hpc, Option.bind_some] at hbyte
    refine ⟨.halt (.InvalidOpcode s.context.code[s.pc]) s.gas.used, s, ?_, .undefined h⟩
    simp only [turn, dif_pos hpc, hbyte]
  · refine ⟨_, _, ?_, .ended (Nat.le_of_not_lt hpc)⟩
    simp only [turn, dif_neg hpc, finish]

/-- The three things that a turn can do. -/
theorem turn_cases (s : Interpreter S) :
    (∃ op s', s.turn = .next s' ∧ Steps op s s') ∨
    (∃ r s', s.turn = .done (.ok r s') ∧ Stops s r s' ∧ ¬s.Panics) ∨
    (∃ p, s.turn = .done (.panic p) ∧ s.Panics) := by
  cases hf : s.fetched with
  | none =>
    obtain ⟨r, s', hturn, hstp⟩ := turn_of_not_fetched hf
    refine .inr (.inl ⟨r, s', hturn, hstp, ?_⟩)
    intro ⟨op, hop, _⟩
    rw [hf] at hop
    cases hop
  | some op =>
    have hturn := turn_of_fetched hf
    have hspec : (executeOpcode op).Sat s _ _ _ := executeOpcode_spec
    have hsafe (h : ¬(Ready op s ∧ s.Overflows op)) : ¬s.Panics := by
      intro ⟨op', hop', hpan⟩
      rw [hf] at hop'
      cases hop'
      exact h hpan
    cases hexec : executeOpcode op s with
    | ok _ s' =>
      rw [hexec] at hturn
      obtain ⟨hrdy, heff, hno⟩ := hspec.of_ok hexec
      cases hres : s'.result with
      | none =>
        rw [afterOpcode, hres] at hturn
        exact .inl ⟨op, s', hturn, hf, hrdy, heff, hno, hres⟩
      | some r =>
        have hfin : s'.finish = .ok r { s' with result := none } := by
          rw [finish, hres]
          rfl
        rw [afterOpcode, hres, hfin] at hturn
        exact .inr (.inl ⟨r, _, hturn, .halted hf hrdy heff hres, hsafe fun h => hno h.2⟩)
    | err e s' =>
      rw [hexec] at hturn
      refine .inr (.inl ⟨_, s', hturn, ?_⟩)
      rcases hspec.of_err hexec with ⟨hrdy, rfl⟩ | ⟨hrdy, hflt, hno⟩
      · exact ⟨.refused hf hrdy, hsafe fun h => hrdy h.1⟩
      · exact ⟨.faulted hf hrdy hflt, hsafe fun h => hno h.2⟩
    | panic p =>
      rw [hexec] at hturn
      obtain ⟨hrdy, h⟩ := hspec.of_panic hexec
      have hpc := fetched_pc_lt hf
      refine .inr (.inr ⟨p, hturn, op, hf, hrdy, h.resolve_right ?_⟩)
      exact not_le.mpr hpc

theorem turn_next (h : s.turn = .next s') : ∃ op, Steps op s s' := by
  rcases turn_cases s with ⟨op, s'', hturn, H⟩ | ⟨_, _, hturn, _⟩ | ⟨_, hturn, _⟩ <;>
    rw [h] at hturn <;> cases hturn
  exact ⟨op, H⟩

theorem turn_next_of_fetched (h : s.turn = .next s') (hop : s.fetched = some op) :
    Steps op s s' := by
  obtain ⟨op', hstep⟩ := turn_next h
  have hfet := hstep.fetched
  rw [hop] at hfet
  cases hfet
  exact hstep

theorem turn_done_ok (h : s.turn = .done (.ok r s')) : Stops s r s' := by
  rcases turn_cases s with ⟨_, _, hturn, _⟩ | ⟨_, _, hturn, H, _⟩ | ⟨_, hturn, _⟩ <;>
    rw [h] at hturn <;> cases hturn
  exact H

theorem turn_ne_err : s.turn ≠ .done (.err e s') := by
  intro h
  rcases turn_cases s with ⟨_, _, hturn, _⟩ | ⟨_, _, hturn, _⟩ | ⟨_, hturn, _⟩ <;>
    rw [h] at hturn <;> cases hturn

theorem turn_panics_iff : (∃ p, s.turn = .done (.panic p)) ↔ s.Panics := by
  rcases turn_cases s with ⟨op, s'', hturn, H⟩ | ⟨r, s'', hturn, -, hno⟩ | ⟨p, hturn, H⟩
  · refine iff_of_false ?_ ?_
    · intro ⟨p, h⟩
      rw [h] at hturn
      cases hturn
    · intro ⟨op', hop', _, hov⟩
      rw [H.fetched] at hop'
      cases hop'
      exact H.no_overflow hov
  · refine iff_of_false ?_ hno
    intro ⟨p, h⟩
    rw [h] at hturn
    cases hturn
  · exact iff_of_true ⟨p, hturn⟩ H

section
omit [Crypto]

section
omit [StateDB S]

theorem eq_sstore_of_storeEntry (h : s.storeEntry op = some w) : op = .SSTORE := by
  unfold storeEntry at h
  split at h
  · rfl
  · cases h

theorem eq_log_of_logEntry (h : s.logEntry op = some log) : ∃ n, op = .LOG n := by
  unfold logEntry at h
  split at h
  · exact ⟨_, rfl⟩
  · cases h

theorem Jumps.kind (h : Jumps op s) : op.kind = .jump := by
  rcases h with rfl | ⟨rfl, _⟩ <;> rfl

end

section
variable (h : Effect op s s')
include h

theorem Effect.inv :
    match op.kind with
    | .jump => Jumps op s → s'.pc = (s.operand 0).toNat ∧ s'.pc < s.context.code.length ∧
        ∃ amt, GasCost.MID.toNat ≤ amt ∧ s.gas.Spent amt s'.gas
    | .write => s.gas.Spent (s.writeCharge op) s'.gas ∧
        s'.memory.len = max s.memory.len (s.writeEnd op) ∧ s.writeEnd op < wordBound
    | .store => ∃ w, s.storeEntry op = some w ∧
        s'.state = StateDB.setStorage s.state s.context.address w.1 w.2
    | .log => ∃ log, s.logEntry op = some log ∧ s'.logs = s.logs ++ [log]
    | .skip => s' = { s with pc := s.pc + 1 }
    | .plain | .push | .halt => True := by
  cases h with
  | plain hop =>
    rcases hop with hop | ⟨rfl, hcond⟩
    · rw [hop]
      trivial
    · intro hj
      rcases hj with hj | ⟨-, hj⟩
      · cases hj
      · exact absurd hcond hj
  | push hop =>
    rw [Opcode.kind_of_pushBytes hop]
    trivial
  | jump hop hdest _ hgas hamo =>
    rw [hop.kind]
    exact fun _ => ⟨rfl, hdest, _, hamo, hgas⟩
  | write hop hgas _ hmem hend =>
    rw [hop]
    exact ⟨hgas, hmem, hend⟩
  | store _ hent =>
    cases eq_sstore_of_storeEntry hent
    exact ⟨_, hent, rfl⟩
  | log _ hent =>
    obtain ⟨n, rfl⟩ := eq_log_of_logEntry hent
    exact ⟨_, hent, rfl⟩
  | halt hop =>
    rw [hop]
    trivial
  | skip hop => rw [hop]

theorem Effect.eq_of_skip (hkind : op.kind = .skip) : s' = { s with pc := s.pc + 1 } := by
  have hinv := h.inv
  rwa [hkind] at hinv

theorem Effect.of_write (hkind : op.kind = .write) :
    s.gas.Spent (s.writeCharge op) s'.gas ∧
      s'.memory.len = max s.memory.len (s.writeEnd op) ∧ s.writeEnd op < wordBound := by
  have hinv := h.inv
  rwa [hkind] at hinv

theorem Effect.context : s'.context = s.context := by
  cases h <;> rfl

theorem Effect.gas : s.gas.Grows s'.gas := by
  cases h with
  | plain _ hgas _ | push _ hgas _ | jump _ _ _ hgas _ _ | write _ hgas _ _ | store _ _ hgas _
  | log _ _ hgas _ => exact hgas.grows
  | halt | skip => exact .refl _

theorem Effect.memory (hkind : op.kind ≠ .write) : s'.memory = s.memory := by
  cases h with
  | write hwr => exact absurd hwr hkind
  | plain | push | jump | store | log | halt | skip => rfl

end

theorem Steps.pc_of_not_jumps (h : Steps op s s') (hj : ¬Jumps op s) :
    s'.pc = min (s.pc + 1 + op.pushBytes.getD 0) s.context.code.length := by
  have hpc := fetched_pc_lt h.fetched
  have hrun := h.running
  have hnext (hkind : op.kind ≠ .push) :
      s.pc + 1 = min (s.pc + 1 + op.pushBytes.getD 0) s.context.code.length := by
    cases hbs : op.pushBytes with
    | none =>
      rw [Option.getD_none]
      omega
    | some n => exact absurd (Opcode.kind_of_pushBytes hbs) hkind
  cases h.effect with
  | plain hop =>
    apply hnext
    rcases hop with hop | ⟨rfl, _⟩
    · rw [hop]
      decide
    · decide
  | push hop =>
    rw [hop]
    rfl
  | jump hjum => exact absurd hjum hj
  | write hop | skip hop =>
    apply hnext
    rw [hop]
    decide
  | store _ hop =>
    cases eq_sstore_of_storeEntry hop
    exact hnext (by decide)
  | log _ hop =>
    obtain ⟨n, rfl⟩ := eq_log_of_logEntry hop
    exact hnext Opcode.Kind.noConfusion
  | halt => cases hrun

theorem Steps.pc_of_jumps (h : Steps op s s') (hj : Jumps op s) :
    s'.pc = (s.operand 0).toNat ∧ s'.pc < s.context.code.length ∧
      ∃ amt, GasCost.MID.toNat ≤ amt ∧ s.gas.Spent amt s'.gas := by
  have hinv := h.effect.inv
  rw [hj.kind] at hinv
  exact hinv hj

omit [StateDB S] in
theorem Faulted.context (h : Faulted s e s') : s'.context = s.context := by
  rw [h.frame]

end

omit [Crypto] in
theorem Stops.frame {r : ExecutionResult} (h : Stops s r s') (hrun : s.result = none) :
    s' = { s with stack := s'.stack, gas := s'.gas } := by
  obtain ⟨ctx, state, stack, mem, gas, pc, returnData, logs, res⟩ := s
  cases hrun
  cases h with
  | ended | undefined | refused => rfl
  | halted _ _ heff hres =>
    cases heff with
    | halt => rfl
    | plain | push | jump | write | store | log | skip => cases hres
  | faulted _ _ hflt => exact hflt.frame

omit [Crypto] in
theorem Stops.gas (h : Stops s r s') : s.gas.Grows s'.gas := by
  cases h with
  | ended | undefined | refused => exact .refl _
  | halted _ _ heff => exact heff.gas
  | faulted _ _ hflt => exact hflt.gas

variable {s₀ : Interpreter S}

/-- The run from `s₀` begins a round in `s` or returns in it. -/
def Visited (s₀ s : Interpreter S) : Prop :=
  Reaches turn s₀ s ∨ ∃ a r, Reaches turn s₀ a ∧ a.turn = .done (.ok r s)

theorem Visited.induct (inv : Interpreter S → Prop) (h0 : inv s₀)
    (heff : ∀ op a b, Reaches turn s₀ a → a.fetched = some op → Ready op a → inv a →
      Effect op a b → inv b) (hflt : ∀ e a b, inv a → Faulted a e b → inv b)
    (hres : ∀ a, inv a → inv { a with result := none }) (H : Visited s₀ s) : inv s := by
  have hrea (a : Interpreter S) (ha : Reaches turn s₀ a) : inv a := by
    refine ha.induct inv h0 ?_
    intro a b hr hinv hturn
    obtain ⟨op, hstep⟩ := turn_next hturn
    exact heff op a b hr hstep.fetched hstep.ready hinv hstep.effect
  rcases H with H | ⟨a, r, hr, hturn⟩
  · exact hrea s H
  · have hinv := hrea a hr
    cases turn_done_ok hturn with
    | ended => exact hres a hinv
    | undefined => exact hinv
    | halted hf hrdy h => exact hres _ (heff _ a _ hr hf hrdy hinv h)
    | refused => exact hinv
    | faulted _ _ h => exact hflt _ a s hinv h

theorem Visited.context (H : Visited s₀ s) : s.context = s₀.context := by
  refine H.induct (fun s => s.context = s₀.context) rfl ?_ ?_ ?_
  · intro op a b _ _ _ ha h
    exact h.context.trans ha
  · intro e a b ha h
    exact h.context.trans ha
  · intro a ha
    exact ha

theorem reaches_context (H : Reaches turn s₀ s) : s.context = s₀.context := Visited.context (.inl H)

theorem reaches_result (h0 : s₀.result = none) (H : Reaches turn s₀ s) : s.result = none := by
  refine H.induct (fun s => s.result = none) h0 ?_
  intro a b _ _ hturn
  obtain ⟨op, hstep⟩ := turn_next hturn
  exact hstep.running

theorem Visited.exists_reaches (h0 : s₀.result = none) (H : Visited s₀ s) :
    ∃ a, Reaches turn s₀ a ∧ s = { a with stack := s.stack, gas := s.gas } ∧ a.gas.Grows s.gas := by
  rcases H with hr | ⟨a, r, hr, hturn⟩
  · exact ⟨s, hr, rfl, .refl _⟩
  · have hstp := turn_done_ok hturn
    exact ⟨a, hr, hstp.frame (reaches_result h0 hr), hstp.gas⟩

omit [StateDB S] [Crypto] in
theorem filterMap_fetched_snoc {β : Type} {f : Interpreter S → Opcode → Option β}
    (hop : s.fetched = some op) : (p ++ [s]).filterMap (fun s => s.fetched.bind (f s)) =
      p.filterMap (fun s => s.fetched.bind (f s)) ++ (f s op).toList := by
  rw [filterMap_append]
  simp only [filterMap_cons, hop, Option.bind_some]
  cases f s op <;> rfl

theorem run_eq_some (h : s₀.run fuel = some b) : ∃ p a, Path turn p s₀ a ∧ a.turn = .done b := by
  obtain ⟨p, a, H, hturn, -⟩ := exec_eq_some.mp h
  exact ⟨p, a, H, hturn⟩

theorem visited_of_run (h : s₀.run fuel = some (.ok r s)) : Visited s₀ s := by
  obtain ⟨p, a, H, hturn⟩ := run_eq_some h
  exact .inr ⟨a, r, H.reaches, hturn⟩

omit [StateDB S] [Crypto] in
theorem exists_of_evaluates {b : Option (RunOutcome S)}
    {P : ExecutionResult → Interpreter S → Prop} [∀ r s, Decidable (P r s)]
    (h : (match b with | some (.ok r s) => decide (P r s) | _ => false) = true) :
    ∃ r s, b = some (.ok r s) ∧ P r s := by
  split at h
  · exact ⟨_, _, rfl, of_decide_eq_true h⟩
  · cases h

omit [StateDB S] [Crypto] in
theorem handleError_spec :
    (s.handleError e).logs = [] ∧ ∃ reason, (s.handleError e).status = .Halt reason := by
  cases e <;> exact ⟨rfl, _, rfl⟩

end Interpreter

end EthereumRust.Evm
