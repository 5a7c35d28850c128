import Mathlib

/-!
# Lib — Runs of an executable transition system

A system is a partial function `step : σ → ε → Option σ`: the event `ε` carries every choice the
environment makes, so a step is determined by its event, and an event the state does not allow
is `none`.  `runs step s es` takes the events `es` in order.

The rules: a run of a concatenation is a run followed by a run (`runs_append`); a property one
step keeps, of states and events in some class, is kept by a run (`runs_inv`); and a property
of the final state that the last step establishes (`runs_snoc`).
-/

namespace Xv6.Lib

variable {σ ε : Type*} {step : σ → ε → Option σ}

/-- The events `es`, taken in order from `s`. -/
def runs (step : σ → ε → Option σ) : σ → List ε → Option σ
  | s, [] => some s
  | s, e :: es => (step s e).bind fun s' => runs step s' es

@[simp] theorem runs_nil (s : σ) : runs step s [] = some s := rfl

theorem runs_cons {s s' : σ} {e : ε} {es : List ε} :
    runs step s (e :: es) = some s' ↔ ∃ s₁, step s e = some s₁ ∧ runs step s₁ es = some s' := by
  simp only [runs, Option.bind_eq_some_iff]

theorem runs_append {s s' : σ} {es₁ es₂ : List ε} :
    runs step s (es₁ ++ es₂) = some s' ↔
      ∃ s₁, runs step s es₁ = some s₁ ∧ runs step s₁ es₂ = some s' := by
  induction es₁ generalizing s with
  | nil => simp
  | cons e es ih =>
      rw [List.cons_append, runs_cons]
      constructor
      · rintro ⟨s₁, h₁, h₂⟩
        obtain ⟨s₂, h₃, h₄⟩ := ih.mp h₂
        exact ⟨s₂, runs_cons.mpr ⟨s₁, h₁, h₃⟩, h₄⟩
      · rintro ⟨s₂, h₁, h₂⟩
        obtain ⟨s₁, h₃, h₄⟩ := runs_cons.mp h₁
        exact ⟨s₁, h₃, ih.mpr ⟨s₂, h₄, h₂⟩⟩

theorem runs_snoc {s s' : σ} {es : List ε} {e : ε} :
    runs step s (es ++ [e]) = some s' ↔ ∃ s₁, runs step s es = some s₁ ∧ step s₁ e = some s' := by
  rw [runs_append]
  refine exists_congr fun s₁ => and_congr_right fun _ => ?_
  rw [runs_cons]
  exact ⟨fun ⟨s₂, h, h'⟩ => by cases h'; exact h, fun h => ⟨s', h, rfl⟩⟩

/-- **The invariant rule.**  A property each step with an event in `P` keeps, holds after every
run whose events are all in `P`. -/
theorem runs_inv {I : σ → Prop} {P : ε → Prop}
    (hstep : ∀ s e s', I s → P e → step s e = some s' → I s') {s s' : σ} {es : List ε}
    (hs : I s) (hP : ∀ e ∈ es, P e) (h : runs step s es = some s') : I s' := by
  induction es generalizing s with
  | nil => cases h; exact hs
  | cons e es ih =>
      obtain ⟨s₁, h₁, h₂⟩ := runs_cons.mp h
      exact ih (hstep s e s₁ hs (hP e (by simp)) h₁) (fun e' he' => hP e' (by simp [he'])) h₂

/-- The invariant rule when no event is excluded. -/
theorem runs_inv_all {I : σ → Prop} (hstep : ∀ s e s', I s → step s e = some s' → I s')
    {s s' : σ} {es : List ε} (hs : I s) (h : runs step s es = some s') : I s' :=
  runs_inv (P := fun _ => True) (fun s e s' hs _ h => hstep s e s' hs h) hs (fun _ _ => trivial) h

/-- A function of the states that takes each step of one system to the same step of another takes its
runs to runs. -/
theorem runs_map {τ : Type*} {step' : τ → ε → Option τ} {f : σ → τ} {I : σ → Prop}
    (hstep : ∀ s e s', I s → step s e = some s' → I s')
    (hf : ∀ s e, I s → (step s e).map f = step' (f s) e) {s : σ} (hs : I s) (es : List ε) :
    (runs step s es).map f = runs step' (f s) es := by
  induction es generalizing s with
  | nil => rfl
  | cons e es ih =>
      rw [runs, runs, ← hf s e hs]
      cases h : step s e with
      | none => rfl
      | some s' => exact ih (hstep s e s' hs h)

/-- The invariant rule for a property of a state and the events that led to it. -/
theorem runs_inv_trace {I : List ε → σ → Prop} {s₀ : σ} (h₀ : I [] s₀)
    (hstep : ∀ es s e s', runs step s₀ es = some s → I es s → step s e = some s' → I (es ++ [e]) s')
    {es : List ε} {s : σ} (h : runs step s₀ es = some s) : I es s := by
  induction es using List.reverseRecOn generalizing s with
  | nil => cases h; exact h₀
  | append_singleton es e ih =>
      obtain ⟨s₁, h₁, h₂⟩ := runs_snoc.mp h
      exact hstep es s₁ e s h₁ (ih h₁) h₂

/-- Every step of the run `es` from `s₀` meets `Q`, a condition on the state before it and its
event. -/
def Meets (step : σ → ε → Option σ) (Q : σ → ε → Prop) (s₀ : σ) (es : List ε) : Prop :=
  ∀ es₁ e es₂ s₁, es = es₁ ++ e :: es₂ → runs step s₀ es₁ = some s₁ → Q s₁ e

theorem Meets.init {Q : σ → ε → Prop} {s₀ : σ} {es : List ε} {e : ε}
    (h : Meets step Q s₀ (es ++ [e])) : Meets step Q s₀ es := by
  rintro es₁ e₁ es₂ s₁ rfl h₁
  exact h es₁ e₁ (es₂ ++ [e]) s₁ (by simp) h₁

theorem Meets.last {Q : σ → ε → Prop} {s₀ s : σ} {es : List ε} {e : ε}
    (h : Meets step Q s₀ (es ++ [e])) (hr : runs step s₀ es = some s) : Q s e :=
  h es e [] s rfl hr

/-- The invariant rule for the runs whose steps all meet `Q`. -/
theorem runs_inv_meets {I : σ → Prop} {Q : σ → ε → Prop}
    (hstep : ∀ s e s', I s → Q s e → step s e = some s' → I s') {s₀ s : σ} {es : List ε}
    (h₀ : I s₀) (hQ : Meets step Q s₀ es) (h : runs step s₀ es = some s) : I s := by
  refine runs_inv_trace (I := fun es s => Meets step Q s₀ es → I s) (fun _ => h₀) ?_ h hQ
  intro es s e s' hr hI hs hQ
  exact hstep s e s' (hI hQ.init) (hQ.last hr) hs

theorem meets_nil {Q : σ → ε → Prop} {s : σ} : Meets step Q s [] := by
  intro es₁ e es₂ s₁ h
  simp at h

theorem meets_cons {Q : σ → ε → Prop} {s : σ} {e : ε} {es : List ε} :
    Meets step Q s (e :: es) ↔ Q s e ∧ ∀ s', step s e = some s' → Meets step Q s' es := by
  constructor
  · intro h
    refine ⟨h [] e es s rfl rfl, ?_⟩
    rintro s' hs' es₁ e₁ es₂ s₁ rfl h₁
    exact h (e :: es₁) e₁ es₂ s₁ rfl (runs_cons.mpr ⟨s', hs', h₁⟩)
  · rintro ⟨he, hes⟩ es₁ e₁ es₂ s₁ heq h₁
    cases es₁ with
    | nil =>
        cases heq
        cases h₁
        exact he
    | cons e₀ es₁ =>
        cases heq
        obtain ⟨s', hs', h₁⟩ := runs_cons.mp h₁
        exact hes s' hs' es₁ e₁ es₂ s₁ rfl h₁

end Xv6.Lib
