import Q2Admin.Base.Exec
import Q2Admin.Base.Run

/-!
# Two programs side by side

General library. `Coupled` compares two programs, from related states, by related outcomes: both
return, with related values, or both stop with the same fault. It is compositional, as `Mirrors`
is for one program, so two versions of a program are compared function by function.
`Run.simulate` takes such a comparison of one step to whole runs.
-/

namespace Q2Admin

namespace Exec

variable {ε σ τ α β γ δ : Type}

/-- Both outcomes return related values or stop with the same fault, in related states. -/
def Outcomes (R : σ → τ → Prop) (V : α → β → Prop) :
    EStateM.Result ε σ α → EStateM.Result ε τ β → Prop
  | .ok a s, .ok b t => V a b ∧ R s t
  | .error e s, .error f t => e = f ∧ R s t
  | _, _ => False

/-- From related states the two programs have related outcomes. -/
def Coupled (R : σ → τ → Prop) (V : α → β → Prop) (x : EStateM ε σ α) (y : EStateM ε τ β) : Prop :=
  ∀ s t, R s t → Outcomes R V (x.run s) (y.run t)

variable {R : σ → τ → Prop} {V : α → β → Prop} {W : γ → δ → Prop}

/-- Where the first program returns, the second one does. -/
theorem Outcomes.ok {r : EStateM.Result ε τ β} {a : α} {s : σ}
    (h : Outcomes R V (EStateM.Result.ok a s) r) : ∃ b t, r = .ok b t ∧ V a b ∧ R s t := by
  cases r with
  | ok b t => exact ⟨b, t, rfl, h.1, h.2⟩
  | error f t => exact h.elim

/-- Programs that go on from related outcomes in related ways. -/
theorem Outcomes.bind {x : EStateM ε σ α} {y : EStateM ε τ β} {f : α → EStateM ε σ γ}
    {g : β → EStateM ε τ δ} {s : σ} {t : τ} (h : Outcomes R V (x.run s) (y.run t))
    (hf : ∀ a b s' t', x.run s = .ok a s' → V a b → R s' t' →
      Outcomes R W ((f a).run s') ((g b).run t')) :
    Outcomes R W ((x >>= f).run s) ((y >>= g).run t) := by
  cases hx : x.run s with
  | ok a s' =>
    rw [hx] at h
    obtain ⟨b, t', hy, hab, hst⟩ := h.ok
    rw [run_bind_of_ok hx, run_bind_of_ok hy]
    exact hf a b s' t' hx hab hst
  | error e s' =>
    rw [hx] at h
    cases hy : y.run t with
    | ok b t' =>
      rw [hy] at h
      exact h.elim
    | error e' t' =>
      rw [hy] at h
      rw [run_bind_of_error hx, run_bind_of_error hy]
      exact h

/-- A program that mirrors itself is coupled to itself. -/
theorem Mirrors.coupled {R : σ → σ → Prop} {x : EStateM ε σ α} (h : Mirrors R x) :
    Coupled R Eq x x := by
  intro s t hst
  have hr := h s t hst
  cases hs : x.run s <;> cases ht : x.run t <;> rw [hs, ht] at hr <;> exact hr

/-- Related results are coupled. -/
theorem coupled_pure {a : α} {b : β} (h : V a b) :
    Coupled R V (pure a : EStateM ε σ α) (pure b) := fun _ _ hst ↦ ⟨h, hst⟩

/-- The same fault on both sides is coupled. -/
theorem coupled_throw (e : ε) : Coupled R V (throw e : EStateM ε σ α) (throw e) :=
  fun _ _ hst ↦ ⟨rfl, hst⟩

/-- In sequence, each part may rely on the result of the one before. -/
theorem coupled_bind {x : EStateM ε σ α} {y : EStateM ε τ β} {f : α → EStateM ε σ γ}
    {g : β → EStateM ε τ δ} (hx : Coupled R V x y)
    (hf : ∀ a b, V a b → Coupled R W (f a) (g b)) : Coupled R W (x >>= f) (y >>= g) :=
  fun s t hst ↦ (hx s t hst).bind fun a b s' t' _ hab hst' ↦ hf a b hab s' t' hst'

/-- Sequencing of programs that return the same value. -/
theorem coupled_bind_eq {x : EStateM ε σ α} {y : EStateM ε τ α} {f : α → EStateM ε σ γ}
    {g : α → EStateM ε τ δ} (hx : Coupled R Eq x y) (hf : ∀ a, Coupled R W (f a) (g a)) :
    Coupled R W (x >>= f) (y >>= g) := by
  apply coupled_bind hx
  rintro a _ rfl
  exact hf a

/-- Both sides take the same branch. -/
theorem coupled_ite {p : Prop} [Decidable p] {x x' : EStateM ε σ α} {y y' : EStateM ε τ β}
    (hx : Coupled R V x y) (hx' : Coupled R V x' y') :
    Coupled R V (if p then x else x') (if p then y else y') := by
  split
  · exact hx
  · exact hx'

/-- Loops over the same list are coupled by their rounds. -/
theorem coupled_forM {l : List α} {f : α → EStateM ε σ PUnit} {g : α → EStateM ε τ PUnit}
    (hf : ∀ a ∈ l, Coupled R Eq (f a) (g a)) : Coupled R Eq (forM l f) (forM l g) := by
  induction l with
  | nil => exact coupled_pure rfl
  | cons a l ih =>
    simp only [List.forM_cons]
    apply coupled_bind_eq (hf a List.mem_cons_self)
    intro _
    exact ih fun b hb ↦ hf b (List.mem_cons_of_mem a hb)

end Exec

/-- Where every step of one system is matched by one of another, so is every run. -/
theorem Run.simulate {μ σ τ : Type} {step : μ → σ → Option σ} {step' : μ → τ → Option τ}
    {G : μ → σ → Prop} {G' : μ → τ → Prop} {R : σ → τ → Prop}
    (hstep : ∀ m s s' t, G m s → R s t → step m s = some s' →
      G' m t ∧ ∃ t', step' m t = some t' ∧ R s' t')
    {ms : List μ} {s s' : σ} (hrun : Run step G ms s s') {t : τ} (h : R s t) :
    ∃ t', Run step' G' ms t t' ∧ R s' t' := by
  induction hrun generalizing t with
  | nil s => exact ⟨t, .nil t, h⟩
  | cons hg hs _ ih =>
    obtain ⟨hg', t₁, ht, hst⟩ := hstep _ _ _ _ hg h hs
    obtain ⟨t', hrest, hend⟩ := ih hst
    exact ⟨t', .cons hg' ht hrest, hend⟩

end Q2Admin
