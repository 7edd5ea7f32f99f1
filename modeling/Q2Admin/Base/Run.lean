import Mathlib.Logic.Basic

/-!
# Finite runs of a step function

General library. A system is a partial step function on states, labelled by what its
environment supplied. A `Run` carries a guard: a condition that every one of its steps
meets in the state from which it is taken. Invariants are proved once per step and
lifted to whole runs by `Run.invariant`.
-/

namespace Q2Admin

variable {σ μ : Type}

/-- A finite run from the first state to the second, each of whose steps meets `G`. -/
inductive Run (step : μ → σ → Option σ) (G : μ → σ → Prop) : List μ → σ → σ → Prop
  | nil (s : σ) : Run step G [] s s
  | cons {m : μ} {ms : List μ} {s s' s'' : σ} :
      G m s → step m s = some s' → Run step G ms s' s'' → Run step G (m :: ms) s s''

/-- The guard of a run without conditions. -/
def Unguarded : μ → σ → Prop := fun _ _ ↦ True

namespace Run

variable {step : μ → σ → Option σ} {G : μ → σ → Prop}

/-- A property that every guarded step preserves holds at the end of every guarded run. -/
theorem invariant {I : σ → Prop}
    (hstep : ∀ m s s', G m s → step m s = some s' → I s → I s')
    {ms : List μ} {s s' : σ} (hrun : Run step G ms s s') (h : I s) : I s' := by
  induction hrun with
  | nil s => exact h
  | cons hg hs _ ih => exact ih (hstep _ _ _ hg hs h)

/-- A run whose steps meet a guard meets every weaker one. -/
theorem mono {G' : μ → σ → Prop} (h : ∀ m s, G m s → G' m s) {ms : List μ} {s s' : σ}
    (hrun : Run step G ms s s') : Run step G' ms s s' := by
  induction hrun with
  | nil s => exact .nil s
  | cons hg hs _ ih => exact .cons (h _ _ hg) hs ih

/-- A run goes on where another one has ended. -/
theorem append {ms ms' : List μ} {s s' s'' : σ} (hrun : Run step G ms s s')
    (hrest : Run step G ms' s' s'') : Run step G (ms ++ ms') s s'' := by
  induction hrun with
  | nil s => exact hrest
  | cons hg hs _ ih => exact .cons hg hs (ih hrest)

end Run

/-- The system with a history variable that watches the steps. -/
def watching {η : Type} (step : μ → σ → Option σ) (watch : μ → σ → η → η) :
    μ → σ × η → Option (σ × η) := fun m p ↦
  (step m p.1).map fun s ↦ (s, watch m p.1 p.2)

/-- A history variable only watches. -/
theorem run_watching {η : Type} {step : μ → σ → Option σ} {watch : μ → σ → η → η}
    {G : μ → σ → Prop} {ms : List μ} {s s' : σ} {h : η} : Run step G ms s s' ↔
      ∃ h', Run (watching step watch) (fun m p ↦ G m p.1) ms (s, h) (s', h') := by
  constructor
  · intro hrun
    induction hrun generalizing h with
    | nil s => exact ⟨h, .nil _⟩
    | @cons m ms s s₁ s' hg hs _ ih =>
      obtain ⟨h', hrun⟩ := ih (h := watch m s h)
      exact ⟨h', .cons hg (by unfold watching; rw [hs]; rfl) hrun⟩
  · rintro ⟨h', hrun⟩
    generalize hp : (s, h) = p at hrun
    generalize hp' : (s', h') = p' at hrun
    induction hrun generalizing s h with
    | nil p =>
      cases hp
      cases hp'
      exact .nil _
    | cons hg hs _ ih =>
      cases hp
      obtain ⟨s₁, hs₁, rfl⟩ := Option.map_eq_some_iff.mp hs
      exact .cons hg hs₁ (ih rfl hp')

/-- Follow a list of labels, checking the guard before every step. -/
def follow (step : μ → σ → Option σ) (G : μ → σ → Prop) [∀ m s, Decidable (G m s)] :
    List μ → σ → Option σ
  | [], s => some s
  | m :: ms, s => if G m s then (step m s).bind (follow step G ms) else none

/-- A followed list of labels is a run. -/
theorem Run.of_follow {step : μ → σ → Option σ} {G : μ → σ → Prop}
    [∀ m s, Decidable (G m s)] {ms : List μ} {s s' : σ} (h : follow step G ms s = some s') :
    Run step G ms s s' := by
  induction ms generalizing s with
  | nil =>
    simp only [follow, Option.some.injEq] at h
    subst h
    exact .nil s
  | cons m ms ih =>
    simp only [follow] at h
    split at h
    · next hg =>
      obtain ⟨t, ht, hrest⟩ := Option.bind_eq_some_iff.mp h
      exact .cons hg ht (ih hrest)
    · simp only [reduceCtorEq] at h

/-- A followed list of labels is a run to a state with whatever holds of its end. -/
theorem Run.exists_of_follow {step : μ → σ → Option σ} {G : μ → σ → Prop}
    [∀ m s, Decidable (G m s)] {ms : List μ} {s : σ} {p : σ → Bool}
    (h : (follow step G ms s).any p = true) : ∃ s', Run step G ms s s' ∧ p s' = true := by
  cases hf : follow step G ms s with
  | none =>
    rw [hf] at h
    cases h
  | some s' =>
    rw [hf] at h
    exact ⟨s', .of_follow hf, h⟩

instance (m : μ) (s : σ) : Decidable ((Unguarded : μ → σ → Prop) m s) :=
  inferInstanceAs (Decidable True)

end Q2Admin
