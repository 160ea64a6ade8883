import Mathlib.Logic.Basic

/-!
# Rust methods as state-passing computations

A method `fn f(&mut self, ..) -> Result<T, E>` is a function of its receiver. It returns `Ok` or
`Err`, and the receiver keeps every write made before the return in both cases, or it panics. A
function that can only return or panic is a `Checked` value, and is used in a method without a
lift being written.

`Method.Sat` is the weakest precondition of a method with one postcondition for each way to leave
it.
-/

namespace Except

variable {ε α β : Type} {c : Except ε α} {f : α → Except ε β}

theorem bind_eq_ok : (c >>= f) = .ok b ↔ ∃ a, c = .ok a ∧ f a = .ok b := by
  cases c with
  | ok a => exact ⟨fun h => ⟨a, rfl, h⟩, fun ⟨_, ha, h⟩ => Except.ok.inj ha ▸ h⟩
  | error e => exact iff_of_false nofun nofun

theorem bind_eq_error : (c >>= f) = .error e ↔ c = .error e ∨ ∃ a, c = .ok a ∧ f a = .error e := by
  cases c with
  | ok a => exact ⟨fun h => .inr ⟨a, rfl, h⟩, fun h => h.elim nofun fun ⟨_, ha, h⟩ => ok.inj ha ▸ h⟩
  | error e' =>
    change (Except.error e' : Except ε β) = .error e ↔ _
    simp

theorem mapError_eq_ok {f : ε → ε'} : c.mapError f = .ok a ↔ c = .ok a := by
  constructor
  · intro h
    cases c with
    | ok _ => exact congrArg ok (ok.inj h)
    | error _ => cases h
  · rintro rfl
    rfl

end Except

/-- The inversion of a successful `?`, written `h.of_bind`. -/
theorem Eq.of_bind {ε α β : Type} {c : Except ε α} {f : α → Except ε β} {b : β}
    (h : (c >>= f) = .ok b) : ∃ a, c = .ok a ∧ f a = .ok b :=
  Except.bind_eq_ok.mp h

namespace Rust

open List

/-- Why a call does not return. `diverges` is no panic of Rust but a loop without end. -/
inductive Panic where
  | arithmetic
  | cast
  | slice
  | unwrap
  | assertion
  | division
  | diverges
  deriving DecidableEq, Repr

abbrev Checked (α : Type) := Except Panic α

theorem not_panics_ok {a : α} : ¬∃ p, (Except.ok a : Checked α) = .error p := by
  intro ⟨_, h⟩
  cases h

variable {β : Type}

theorem Checked.bind_ne_error {c : Checked α} {f : α → Checked β}
    (hc : c ≠ .error p) (hf : ∀ a, f a ≠ .error p) : (c >>= f) ≠ .error p := by
  cases c with
  | ok a => exact hf a
  | error p' =>
    intro h
    cases h
    exact hc rfl

theorem Checked.mapM_eq_ok {α : Type} {f : α → Checked β} {g : α → β} {l : List α}
    (h : ∀ a ∈ l, f a = .ok (g a)) : l.mapM f = .ok (l.map g) := by
  induction l with
  | nil => rfl
  | cons a l ih =>
    rw [mapM_cons, h a mem_cons_self, ih fun b hb => h b (.tail _ hb)]
    rfl

theorem Checked.mapM_concat {α : Type} {f : α → Checked β} {l : List α} {a : α}
    (h : l.mapM f = .ok l') (ha : f a = .ok b) : (l ++ [a]).mapM f = .ok (l' ++ [b]) := by
  rw [mapM_append, h, mapM_cons, ha]
  rfl

theorem Checked.of_mapM_eq_ok {α : Type} {f : α → Checked β} {l : List α}
    (h : l.mapM f = .ok l') : ∀ a ∈ l, ∃ b, f a = .ok b := by
  induction l generalizing l' with
  | nil => exact forall_mem_nil _
  | cons a l ih =>
    rw [mapM_cons] at h
    obtain ⟨b, hb, h⟩ := Except.bind_eq_ok.mp h
    obtain ⟨bs, hbs, -⟩ := Except.bind_eq_ok.mp h
    exact forall_mem_cons.mpr ⟨⟨b, hb⟩, ih hbs⟩

/-- Whatever `c` returns is in `Q`, and if `ready` it returns. -/
structure Checked.Ensures {α : Type} (ready : Prop) (c : Checked α) (Q : α → Prop) : Prop where
  of_ok : ∀ a, c = .ok a → Q a
  returns : ready → ∃ a, c = .ok a

namespace Checked.Ensures

variable {α β : Type} {ready' : Prop} {c : Checked α} {f : α → Checked β} {a : α}
  {P : α → Prop} {Q : β → Prop}

theorem intro (hc : c = .ok a) (h : P a) : Ensures ready c P where
  of_ok b hb := by
    cases hc.symm.trans hb
    exact h
  returns _ := ⟨a, hc⟩

theorem mono (h : Ensures ready c P) (hrdy : ready' → ready) (hP : ∀ a, P a → P' a) :
    Ensures ready' c P' where
  of_ok a ha := hP a (h.of_ok a ha)
  returns hr := h.returns (hrdy hr)

theorem bind (h : Ensures ready c P) (hf : ∀ a, P a → Ensures ready (f a) Q) :
    Ensures ready (c >>= f) Q where
  of_ok b hb := by
    obtain ⟨a, ha, hb⟩ := Except.bind_eq_ok.mp hb
    exact (hf a (h.of_ok a ha)).of_ok b hb
  returns hr := by
    obtain ⟨a, ha⟩ := h.returns hr
    obtain ⟨b, hb⟩ := (hf a (h.of_ok a ha)).returns hr
    exact ⟨b, Except.bind_eq_ok.mpr ⟨a, ha, hb⟩⟩

theorem bind_of_ok (hc : c = .ok a) (h : Ensures ready (f a) Q) : Ensures ready (c >>= f) Q := by
  rw [hc]
  exact h

theorem foldlM {f : β → α → Checked β} {I : List α → List α → β → Prop}
    (hstep : ∀ done x rest b, I done (x :: rest) b → Ensures ready (f b x) (I (done ++ [x]) rest))
    (h : I done rest b) : Ensures ready (rest.foldlM f b) (I (done ++ rest) []) := by
  induction rest generalizing done b with
  | nil =>
    rw [append_nil]
    exact intro rfl h
  | cons x rest ih =>
    rw [foldlM_cons, append_cons]
    exact (hstep done x rest b h).bind fun _ => ih

end Checked.Ensures

/-- The ways to leave a method with receiver `σ`, error `ε` and value `α`. -/
inductive Outcome (σ ε α : Type) where
  | ok (a : α) (s : σ)
  | err (e : ε) (s : σ)
  | panic (p : Panic)
  deriving DecidableEq, Repr

def Outcome.state? {σ ε α : Type} : Outcome σ ε α → Option σ
  | .ok _ s => some s
  | .err _ s => some s
  | .panic _ => none

def Method (σ ε α : Type) : Type := σ → Outcome σ ε α

namespace Method

variable {σ ε α β : Type}

instance : Monad (Method σ ε) where
  pure a := fun s => .ok a s
  bind m f := fun s =>
    match m s with
    | .ok a s' => f a s'
    | .err e s' => .err e s'
    | .panic p => .panic p

def fail (e : ε) : Method σ ε α := fun s => .err e s

def read (f : σ → α) : Method σ ε α := fun s => .ok (f s) s

def update (f : σ → σ) : Method σ ε Unit := fun s => .ok () (f s)

def checked : Checked α → Method σ ε α
  | .ok a => fun s => .ok a s
  | .error p => fun _ => .panic p

instance : MonadLift Checked (Method σ ε) where
  monadLift := checked

/-- `?` on the `Result` of a function that does not touch the receiver. -/
def result : Except ε α → Method σ ε α
  | .ok a => fun s => .ok a s
  | .error e => fun s => .err e s

/-- Look at the `Result` of a method; what it has written stays. -/
def attempt {ε' : Type} (m : Method σ ε α) : Method σ ε' (Except ε α) := fun s =>
  match m s with
  | .ok a s' => .ok (.ok a) s'
  | .err e s' => .ok (.error e) s'
  | .panic p => .panic p

variable {b : β} {f : β → Method σ ε α}

theorem bind_of_ok (h : m s = .ok b s') : (m >>= f) s = f b s' := by
  change (match m s with | .ok a s' => f a s' | .err e s' => .err e s' | .panic p => .panic p) = _
  rw [h]

theorem bind_of_err (h : m s = .err e s') : (m >>= f) s = .err e s' := by
  change (match m s with | .ok a s' => f a s' | .err e s' => .err e s' | .panic p => .panic p) = _
  rw [h]

theorem bind_of_panic (h : m s = .panic p) : (m >>= f) s = .panic p := by
  change (match m s with | .ok a s' => f a s' | .err e s' => .err e s' | .panic p => .panic p) = _
  rw [h]

theorem bind_eq_ok : (m >>= f) s = .ok a s' ↔ ∃ b t, m s = .ok b t ∧ f b t = .ok a s' := by
  cases hm : m s with
  | ok b t =>
    rw [bind_of_ok hm]
    constructor
    · intro h
      exact ⟨b, t, rfl, h⟩
    · rintro ⟨b', t', h, h'⟩
      cases h
      exact h'
  | err e t => simp [bind_of_err hm]
  | panic p => simp [bind_of_panic hm]

theorem bind_congr {m m' : Method σ ε β} (h : m s = m' s)
    (hf : ∀ b t, m s = .ok b t → f b t = f' b t) : (m >>= f) s = (m' >>= f') s := by
  cases hm : m s with
  | ok b t => rw [bind_of_ok hm, bind_of_ok (h.symm.trans hm), hf b t hm]
  | err e t => rw [bind_of_err hm, bind_of_err (h.symm.trans hm)]
  | panic p => rw [bind_of_panic hm, bind_of_panic (h.symm.trans hm)]

theorem bind_assoc (f : β → Method σ ε γ) (g : γ → Method σ ε α) :
    m >>= f >>= g = m >>= fun b => f b >>= g := by
  funext s
  cases hm : m s with
  | ok b t =>
    have hf : (m >>= f) s = f b t := bind_of_ok hm
    rw [bind_of_ok hm]
    cases h : f b t with
    | ok c u => rw [bind_of_ok h, bind_of_ok (hf.trans h)]
    | err e u => rw [bind_of_err h, bind_of_err (hf.trans h)]
    | panic p => rw [bind_of_panic h, bind_of_panic (hf.trans h)]
  | err e t => rw [bind_of_err hm, bind_of_err (bind_of_err hm)]
  | panic p => rw [bind_of_panic hm, bind_of_panic (bind_of_panic hm)]

theorem bind_read {f : σ → β} {g : β → Method σ ε α} : (read f >>= g) s = g (f s) s := rfl

theorem bind_update {f : σ → σ} {g : Unit → Method σ ε α} : (update f >>= g) s = g () (f s) := rfl

theorem pure_eq_ok {a b : α} : (pure a : Method σ ε α) s = .ok b s' ↔ b = a ∧ s' = s := by
  change Outcome.ok a s = .ok b s' ↔ _
  simp [eq_comm]

theorem read_eq_ok {f : σ → α} : (read f : Method σ ε α) s = .ok a s' ↔ a = f s ∧ s' = s := by
  simp [read, eq_comm]

theorem update_eq_ok {f : σ → σ} : (update f : Method σ ε Unit) s = .ok u s' ↔ s' = f s := by
  simp [update, eq_comm]

theorem fail_ne_ok : (fail e : Method σ ε α) s ≠ .ok a s' := nofun

theorem checked_eq_ok {c : Checked α} :
    (liftM c : Method σ ε α) s = .ok a s' ↔ c = .ok a ∧ s' = s := by
  cases c with
  | ok b =>
    change Outcome.ok b s = .ok a s' ↔ _
    simp [eq_comm]
  | error p =>
    change Outcome.panic p = .ok a s' ↔ _
    simp

theorem result_eq_ok : (result r : Method σ ε α) s = .ok a s' ↔ r = .ok a ∧ s' = s := by
  cases r <;> simp [result, eq_comm]

variable {c : Checked β}

theorem bind_checked_eq_ok :
    ((liftM c : Method σ ε β) >>= f) s = .ok a s' ↔ ∃ b, c = .ok b ∧ f b s = .ok a s' := by
  simp [bind_eq_ok, checked_eq_ok, and_assoc]

theorem bind_result_eq_ok : (result r >>= f) s = .ok a s' ↔ ∃ b, r = .ok b ∧ f b s = .ok a s' := by
  simp [bind_eq_ok, result_eq_ok, and_assoc]

theorem bind_checked_of_ok (h : c = .ok b) : ((liftM c : Method σ ε β) >>= f) s = f b s :=
  bind_of_ok (checked_eq_ok.mpr ⟨h, rfl⟩)

theorem bind_checked_of_error (h : c = .error p) :
    ((liftM c : Method σ ε β) >>= f) s = .panic p := by
  rw [h]
  rfl

theorem bind_result_of_ok (h : r = .ok b) : (result r >>= f) s = f b s :=
  bind_of_ok (result_eq_ok.mpr ⟨h, rfl⟩)

/-- Started in `s`, `m` returns `Ok` in `Q`, `Err` in `E`, or panics in `P`. -/
def Sat (m : Method σ ε α) (s : σ) (Q : α → σ → Prop) (E : ε → σ → Prop) (P : Panic → Prop) :
    Prop :=
  match m s with
  | .ok a s' => Q a s'
  | .err e s' => E e s'
  | .panic p => P p

section
variable {s : σ} {Q : α → σ → Prop} {E : ε → σ → Prop}

@[simp] theorem sat_bind :
    Sat (m >>= f) s Q E P ↔ Sat m s (fun b s' => Sat (f b) s' Q E P) E P := by
  change (match (match m s with
    | .ok a s' => f a s' | .err e s' => .err e s' | .panic p => .panic p) with
    | .ok a s' => Q a s' | .err e s' => E e s' | .panic p => P p) ↔
    (match m s with | .ok b s' => Sat (f b) s' Q E P | .err e s' => E e s' | .panic p => P p)
  cases m s <;> rfl

@[simp] theorem sat_read {f : σ → α} : Sat (read f) s Q E P ↔ Q (f s) s := Iff.rfl

@[simp] theorem sat_update {f : σ → σ} {Q : Unit → σ → Prop} :
    Sat (update f) s Q E P ↔ Q () (f s) := Iff.rfl

theorem sat_checked {c : Checked α} :
    Sat (liftM c : Method σ ε α) s Q E P ↔
      match c with | .ok a => Q a s | .error p => P p := by
  cases c <;> rfl

variable {m : Method σ ε α}

theorem sat_ite {c : Prop} [Decidable c] :
    Sat (if c then m else m') s Q E P ↔ if c then Sat m s Q E P else Sat m' s Q E P := by
  split <;> rfl

theorem sat_attempt {Q : Except ε α → σ → Prop} {E : ε' → σ → Prop} :
    Sat (attempt m) s Q E P ↔
      Sat m s (fun a s' => Q (.ok a) s') (fun e s' => Q (.error e) s') P := by
  rw [Sat, attempt, Sat]
  cases m s <;> rfl

theorem Sat.of_ok (h : Sat m s Q E P) (hm : m s = .ok a s') : Q a s' := by
  rwa [Sat, hm] at h

theorem Sat.of_err (h : Sat m s Q E P) (hm : m s = .err e s') : E e s' := by
  rwa [Sat, hm] at h

theorem Sat.of_panic (h : Sat m s Q E P) (hm : m s = .panic p) : P p := by
  rwa [Sat, hm] at h

theorem Sat.exists_ok (h : Sat m s Q (fun _ _ => False) (fun _ => False)) :
    ∃ a s', m s = .ok a s' ∧ Q a s' := by
  cases hm : m s with
  | ok a s' => exact ⟨a, s', rfl, h.of_ok hm⟩
  | err e s' => exact (h.of_err hm).elim
  | panic p => exact (h.of_panic hm).elim

end

variable {P : Panic → Prop} {Q : α → σ → Prop} {E : ε → σ → Prop}

theorem Sat.mono (h : Sat m s Q E P) (hQ : ∀ a s', Q a s' → Q' a s')
    (hE : ∀ e s', E e s' → E' e s') (hP : ∀ p, P p → P' p) : Sat m s Q' E' P' := by
  unfold Sat at h ⊢
  cases hm : m s with
  | ok a s' => rw [hm] at h; exact hQ a s' h
  | err e s' => rw [hm] at h; exact hE e s' h
  | panic p => rw [hm] at h; exact hP p h

theorem sat_bind_of_ok (h : m s = .ok b s') : Sat (m >>= f) s Q E P ↔ Sat (f b) s' Q E P := by
  rw [Sat, bind_of_ok h]
  exact Iff.rfl

theorem sat_congr (h : ∀ a s', m s = .ok a s' → (Q a s' ↔ Q' a s')) :
    Sat m s Q E P ↔ Sat m s Q' E P := by
  unfold Sat
  cases hm : m s with
  | ok a s' => exact h a s' hm
  | err e s' => exact Iff.rfl
  | panic p => exact Iff.rfl

theorem sat_foldlM {f : β → α → Method σ ε β} {I : List α → β → σ → Prop}
    (hstep : ∀ ys x zs, xs = ys ++ x :: zs → ∀ b s, I ys b s →
      Sat (f b x) s (fun b' s' => I (ys ++ [x]) b' s') E P) (h : I [] b s) :
    Sat (xs.foldlM f b) s (fun b' s' => I xs b' s') E P := by
  have hrun : ∀ zs ys, xs = ys ++ zs → ∀ b s, I ys b s →
      Sat (zs.foldlM f b) s (fun b' s' => I xs b' s') E P := by
    intro zs
    induction zs with
    | nil =>
      intro ys hxs b s h
      rw [hxs, append_nil]
      exact h
    | cons z zs ih =>
      intro ys hxs b s h
      rw [foldlM_cons, sat_bind]
      refine (hstep ys z zs hxs b s h).mono (fun b' s' h' => ?_) (fun _ _ => id) (fun _ => id)
      exact ih (ys ++ [z]) (by rw [hxs, append_assoc, singleton_append]) b' s' h'
  exact hrun xs [] rfl b s h

/-- However `m` returns, it keeps an invariant of its receiver. -/
def Keeps (inv : σ → Prop) (m : Method σ ε α) : Prop :=
  ∀ s, inv s → Sat m s (fun _ => inv) (fun _ => inv) (fun _ => True)

namespace Keeps
variable {inv : σ → Prop} {m : Method σ ε α}

theorem pure (a : α) : Keeps inv (Pure.pure a : Method σ ε α) := fun _ hs => hs

theorem fail (e : ε) : Keeps inv (Method.fail e : Method σ ε α) := fun _ hs => hs

theorem update {f : σ → σ} (h : ∀ s, inv s → inv (f s)) :
    Keeps inv (Method.update f : Method σ ε Unit) := h

variable {f : α → Method σ ε β}

theorem bind (hm : Keeps inv m) (hf : ∀ a, Keeps inv (f a)) : Keeps inv (m >>= f) := by
  intro s hs
  rw [sat_bind]
  exact (hm s hs).mono (fun a s' hs' => hf a s' hs') (fun _ _ => id) (fun _ => id)

theorem bind_read {f : σ → α} {g : α → Method σ ε β} (h : ∀ s, inv s → Keeps inv (g (f s))) :
    Keeps inv (read f >>= g) := fun s hs => h s hs s hs

theorem bind_checked {c : Checked α} (h : ∀ a, c = .ok a → Keeps inv (f a)) :
    Keeps inv ((liftM c : Method σ ε α) >>= f) := by
  intro s hs
  cases c with
  | ok a => exact h a rfl s hs
  | error p => trivial

theorem bind_result (h : ∀ a, r = .ok a → Keeps inv (f a)) : Keeps inv (Method.result r >>= f) := by
  intro s hs
  cases r with
  | ok a => exact h a rfl s hs
  | error e => exact hs

end Keeps

end Method

end Rust
