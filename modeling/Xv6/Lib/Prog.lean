import Mathlib

/-!
# Lib — Programs on a state that may stop

A program on states `σ` gives a value and a new state, or stops with an `ε` (`Prog`).  `Wp m s E Q`
says that `m`, run from `s`, ends in `Q` or stops in `E`.  The rules take a program apart: `wp_bind`
and its like are equivalences, for the simplifier; `Wp.bind` puts a specification of the first
program in front of a proof about the rest; `wp_forEach` is the invariant rule of a loop over a
list.
-/

namespace Xv6.Lib

variable {σ τ ε α β : Type}

/-- A program on states `σ`: a value and a new state, or an `ε` it stops with. -/
def Prog (σ ε α : Type) : Type := σ → Except ε (α × σ)

namespace Prog

instance : Monad (Prog σ ε) where
  pure a := fun s => .ok (a, s)
  bind m f := fun s =>
    match m s with
    | .ok (a, s') => f a s'
    | .error e => .error e

/-- What `f` reads off the state. -/
def gets (f : σ → α) : Prog σ ε α := fun s => .ok (f s, s)

def modify (f : σ → σ) : Prog σ ε Unit := fun s => .ok ((), f s)

def stop (e : ε) : Prog σ ε α := fun _ => .error e

/-- `f` for each member of the list, in order. -/
def forEach : List α → (α → Prog σ ε Unit) → Prog σ ε Unit
  | [], _ => pure ()
  | a :: as, f => do
      f a
      forEach as f

/-- A program on a part of the state. -/
def zoom (part : τ → σ) (put : τ → σ → τ) (m : Prog σ ε α) : Prog τ ε α := fun t =>
  match m (part t) with
  | .ok (a, s) => .ok (a, put t s)
  | .error e => .error e

/-- Run from `s`, the program ends in `Q` or stops in `E`. -/
def Wp (m : Prog σ ε α) (s : σ) (E : ε → Prop) (Q : α → σ → Prop) : Prop :=
  match m s with
  | .ok (a, s') => Q a s'
  | .error e => E e

section Rules
variable {m : Prog σ ε α} {f : α → Prog σ ε β} {s : σ} {E E' : ε → Prop} {Q Q' : α → σ → Prop}
  {R : β → σ → Prop}

theorem wp_of_ok {a : α} {s' : σ} (h : m s = .ok (a, s')) : Wp m s E Q ↔ Q a s' := by
  rw [Wp, h]

theorem wp_of_error {e : ε} (h : m s = .error e) : Wp m s E Q ↔ E e := by
  rw [Wp, h]

@[simp] theorem wp_pure {a : α} : Wp (pure a) s E Q ↔ Q a s := Iff.rfl

@[simp] theorem wp_gets {g : σ → α} : Wp (gets g) s E Q ↔ Q (g s) s := Iff.rfl

@[simp] theorem wp_modify {g : σ → σ} {Q : Unit → σ → Prop} :
    Wp (modify g) s E Q ↔ Q () (g s) := Iff.rfl

@[simp] theorem wp_stop {e : ε} : Wp (stop e) s E Q ↔ E e := Iff.rfl

@[simp] theorem wp_bind :
    Wp (m >>= f) s E R ↔ Wp m s E fun a s' => Wp (f a) s' E R := by
  simp only [Wp, Bind.bind]
  cases m s with
  | ok r => rfl
  | error e => rfl

theorem bind_bind {γ : Type} {g : β → Prog σ ε γ} : (m >>= f) >>= g = m >>= fun a => f a >>= g := by
  funext s
  simp only [Bind.bind]
  cases m s with
  | ok r => rfl
  | error e => rfl

theorem wp_trivial : Wp m s (fun _ => True) fun _ _ => True := by
  unfold Wp
  cases m s with
  | ok r => trivial
  | error e => trivial

/-- The rule of consequence. -/
theorem Wp.mono (h : Wp m s E Q) (hE : ∀ e, E e → E' e) (hQ : ∀ a s', Q a s' → Q' a s') :
    Wp m s E' Q' := by
  unfold Wp at h ⊢
  cases hm : m s with
  | ok r =>
      rw [hm] at h
      exact hQ r.1 r.2 h
  | error e =>
      rw [hm] at h
      exact hE e h

theorem Wp.post (h : Wp m s E Q) (hQ : ∀ a s', Q a s' → Q' a s') : Wp m s E Q' :=
  h.mono (fun _ he => he) hQ

/-- A specification of the first program, before a proof about the rest. -/
theorem Wp.bind (h : Wp m s E Q) (hf : ∀ a s', Q a s' → Wp (f a) s' E R) :
    Wp (m >>= f) s E R :=
  wp_bind.mpr (h.post hf)

/-- The same for a first program that stops in fewer ways. -/
theorem Wp.seq (h : Wp m s E Q) (hE : ∀ e, E e → E' e) (hf : ∀ a s', Q a s' → Wp (f a) s' E' R) :
    Wp (m >>= f) s E' R :=
  wp_bind.mpr (h.mono hE hf)

theorem Wp.of_eq_ok (h : Wp m s E Q) {a : α} {s' : σ} (hm : m s = .ok (a, s')) : Q a s' :=
  (wp_of_ok hm).mp h

theorem Wp.of_eq_error (h : Wp m s E Q) {e : ε} (hm : m s = .error e) : E e :=
  (wp_of_error hm).mp h

/-- A program that does not stop returns. -/
theorem Wp.exists_ok (h : Wp m s E Q) (hE : ∀ e, ¬ E e) : ∃ a s', m s = .ok (a, s') ∧ Q a s' := by
  cases hm : m s with
  | ok r => exact ⟨r.1, r.2, rfl, h.of_eq_ok hm⟩
  | error e => exact absurd (h.of_eq_error hm) (hE e)

/-- Two specifications of one program. -/
theorem Wp.and (h : Wp m s E Q) (h' : Wp m s E' Q') :
    Wp m s (fun e => E e ∧ E' e) fun a s' => Q a s' ∧ Q' a s' := by
  cases hm : m s with
  | ok r => exact (wp_of_ok hm).mpr ⟨h.of_eq_ok hm, h'.of_eq_ok hm⟩
  | error e => exact (wp_of_error hm).mpr ⟨h.of_eq_error hm, h'.of_eq_error hm⟩

theorem bind_of_ok {a : α} {s' : σ} (h : m s = .ok (a, s')) : (m >>= f) s = f a s' := by
  simp only [Bind.bind, h]

/-- A run that returns, with a result that passes a check. -/
theorem exists_of_check {p : α → σ → Prop} [∀ a s, Decidable (p a s)]
    (h : (m s).toOption.any (fun r => p r.1 r.2) = true) : ∃ a s', m s = .ok (a, s') ∧ p a s' := by
  cases hm : m s with
  | error e =>
      rw [hm] at h
      cases h
  | ok r =>
      rw [hm] at h
      exact ⟨r.1, r.2, rfl, of_decide_eq_true h⟩

/-- A run that stops: without its result, what it stops with can be compared. -/
theorem eq_error_of_check {e : ε} (h : (m s).map (fun _ => ()) = .error e) : m s = .error e := by
  cases hm : m s with
  | error e' =>
      rw [hm] at h
      cases h
      rfl
  | ok r =>
      rw [hm] at h
      cases h

/-- **The loop rule.**  `I` speaks of the members done and the state. -/
theorem wp_forEach {body : α → Prog σ ε Unit} {I : List α → σ → Prop} {as : List α}
    (hstep : ∀ done a rest s, as = done ++ a :: rest → I done s →
      Wp (body a) s E fun _ s' => I (done ++ [a]) s')
    (h : I [] s) : Wp (forEach as body) s E fun _ s' => I as s' := by
  -- the members done and the members to come make up the list
  suffices hall : ∀ (rest done : List α) (s : σ), as = done ++ rest → I done s →
      Wp (forEach rest body) s E fun _ s' => I as s' from hall as [] s rfl h
  intro rest
  induction rest with
  | nil =>
      intro done s has hI
      rw [List.append_nil] at has
      subst has
      exact hI
  | cons a rest ih =>
      intro done s has hI
      refine (hstep done a rest s has hI).bind fun _ s' hI' => ?_
      exact ih (done ++ [a]) s' (by rw [has, List.append_assoc]; rfl) hI'

theorem wp_zoom {part : τ → σ} {put : τ → σ → τ} {t : τ} {Q : α → τ → Prop} :
    Wp (zoom part put m) t E Q ↔ Wp m (part t) E fun a s => Q a (put t s) := by
  simp only [Wp, zoom]
  cases m (part t) with
  | ok r => rfl
  | error e => rfl

end Rules

-- a program is taken apart by the rules above, never by running it
attribute [irreducible] Wp

end Prog

end Xv6.Lib
