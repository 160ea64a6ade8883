import EthereumRust.Lib.Method
import Mathlib.Data.List.Forall2

/-!
# Calls of recursive functions

A recursive function runs with the number of stack frames left. A call that does not return `Ok`
stops with its error, with a panic, or because no frame is left.
-/

namespace Rust

open List

inductive Stop (ε : Type) where
  | err (e : ε)
  | panic (p : Panic)
  | overflow
  deriving DecidableEq, Repr

abbrev Call (ε α : Type) := Except (Stop ε) α

namespace Call

variable {ε α : Type}

def fail (e : ε) : Call ε α := .error (.err e)

def checked : Checked α → Call ε α
  | .ok a => .ok a
  | .error p => .error (.panic p)

instance : MonadLift Checked (Call ε) where
  monadLift := checked

@[simp] theorem ok_bind (a : α) (f : α → Call ε β) : (Except.ok a >>= f) = f a := rfl

@[simp] theorem error_bind : (Except.error e >>= f) = .error e := rfl

@[simp] theorem liftM_ok : (liftM (Except.ok a : Checked α) : Call ε α) = .ok a := rfl

theorem check_bind_eq_ok {f : Unit → Call ε β} : (m >>= f) = .ok b ↔ m = .ok () ∧ f () = .ok b :=
  Except.bind_eq_ok.trans ⟨fun ⟨_, h⟩ => h, fun h => ⟨(), h⟩⟩

theorem guard_eq_ok [Decidable c] {m : Call ε α} :
    (if c then fail e else m) = .ok a ↔ ¬c ∧ m = .ok a := by
  by_cases h : c
  · simp [fail, h]
  · simp [h]

theorem liftM_eq_ok {c : Checked α} : (liftM c : Call ε α) = .ok a ↔ c = .ok a := by
  cases c with
  | ok b =>
    simp
  | error p =>
    change Except.error (Stop.panic p) = Except.ok a ↔ _
    simp

theorem checked_bind_eq_ok {c : Checked α} {f : α → Call ε β} :
    ((liftM c : Call ε α) >>= f) = .ok b ↔ ∃ a, c = .ok a ∧ f a = .ok b := by
  simp only [Except.bind_eq_ok, liftM_eq_ok]

theorem mapM_eq_ok {f : α → Call ε β} {g : α → β} {l : List α} (h : ∀ a ∈ l, f a = .ok (g a)) :
    l.mapM f = .ok (l.map g) := by
  induction l with
  | nil => rfl
  | cons a l ih =>
    rw [mapM_cons, h a mem_cons_self, ih fun b hb => h b (.tail _ hb)]
    rfl

theorem foldlM_append_eq_ok {f : List β → α → Call ε (List β)} {l : List α}
    (h : ∀ a ∈ l, ∀ acc, f acc a = .ok (acc ++ g a)) :
    l.foldlM f acc = .ok (acc ++ l.flatMap g) := by
  induction l generalizing acc with
  | nil => exact congrArg _ (append_nil acc).symm
  | cons a l ih =>
    rw [foldlM_cons, h a mem_cons_self, ok_bind, ih fun b hb => h b (.tail _ hb),
      flatMap_cons, append_assoc]

theorem foldlM_eq_ok_induction {γ : Type} {f : β → α → Call ε β} {R : γ → α → Prop}
    {P : List γ → β → Prop}
    (hstep : ∀ {done c a b b'}, P done b → R c a → f b a = .ok b' → P (done ++ [c]) b')
    {cs : List γ} (hl : List.Forall₂ R cs l) (done : List γ)
    (hb : P done b) (h : l.foldlM f b = .ok b') : P (done ++ cs) b' := by
  induction hl generalizing done b with
  | nil =>
    cases h
    rwa [append_nil]
  | cons hc _ ih =>
    obtain ⟨next, hnext, h⟩ := h.of_bind
    have hdone := ih _ (hstep hb hc hnext) h
    rwa [append_assoc] at hdone

theorem foldlM_eq_ok_induction_self {f : β → α → Call ε β} {P : List α → β → Prop}
    (hstep : ∀ {done a b b'}, P done b → f b a = .ok b' → P (done ++ [a]) b')
    (hb : P [] b) (h : l.foldlM f b = .ok b') : P l b' :=
  foldlM_eq_ok_induction (R := Eq) (fun hb hc hf => hstep hb (hc ▸ hf))
    (forall₂_eq_eq_eq ▸ rfl) [] hb h

theorem forall₂_of_mapM_eq_ok {f : α → Call ε β}
    (h : l.mapM f = .ok l') : List.Forall₂ (fun a b => f a = .ok b) l l' := by
  induction l generalizing l' with
  | nil =>
    cases h
    exact .nil
  | cons a l ih =>
    rw [mapM_cons] at h
    obtain ⟨b, hb, h⟩ := h.of_bind
    obtain ⟨bs, hbs, h⟩ := h.of_bind
    cases h
    exact .cons hb (ih hbs)

/-- A way to say that a call answers with a value, closed under composition. -/
structure Answering (ε : Type) where
  Answers : {α : Type} → Call ε α → α → Prop
  ok : ∀ {α : Type} (a : α), Answers (.ok a) a
  bind : ∀ {α β : Type} {m : Call ε α} {f : α → Call ε β} {a : α} {b : β},
    Answers m a → Answers (f a) b → Answers (m >>= f) b

def returns : Answering ε where
  Answers m a := m = .ok a
  ok _ := rfl
  bind := by
    rintro α β m f a b rfl hf
    exact hf

def returnsOnly : Answering ε where
  Answers m a := ∀ a', m = .ok a' → a' = a
  ok a a' h := (Except.ok.inj h).symm
  bind := by
    intro α β m f a b hm hf b' h
    obtain ⟨a', ha', hb'⟩ := h.of_bind
    obtain rfl := hm a' ha'
    exact hf b' hb'

def ofMethod {σ ε' : Type} (wrap : ε' → ε) (m : Method σ ε' α) : StateT σ (Call ε) α := fun s =>
  match m s with
  | .ok a s' => .ok (a, s')
  | .err e _ => .error (.err (wrap e))
  | .panic p => .error (.panic p)

end Call

end Rust
