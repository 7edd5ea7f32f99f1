import Mathlib.Logic.Basic

/-!
# Loops without a bound

General library. A round of a loop goes on with a new state or stops with a result. `rounds` runs
the loop for as many rounds as there is fuel; `Stops` says that some amount of it is enough. A
result is the same for every amount that is enough, and a loop whose every round goes on has none.
-/

namespace Q2Admin

variable {σ ρ : Type}

/-- The result of a loop, if it stops within as many rounds as there is fuel. -/
def rounds (round : σ → σ ⊕ ρ) : Nat → σ → Option ρ
  | 0, _ => none
  | fuel + 1, s => (round s).elim (rounds round fuel) some

/-- The loop stops with the result. -/
def Stops (round : σ → σ ⊕ ρ) (s : σ) (r : ρ) : Prop := ∃ fuel, rounds round fuel s = some r

namespace Stops

variable {round : σ → σ ⊕ ρ} {s s' : σ} {r r' : ρ}

/-- A round that stops ends the loop. -/
theorem of_inr (h : round s = .inr r) : Stops round s r := by
  refine ⟨1, ?_⟩
  unfold rounds
  rw [h]
  rfl

/-- A round that goes on leaves the rest of the loop. -/
theorem of_inl (h : round s = .inl s') (hrest : Stops round s' r) : Stops round s r := by
  obtain ⟨fuel, hrun⟩ := hrest
  refine ⟨fuel + 1, ?_⟩
  unfold rounds
  rw [h]
  exact hrun

/-- A loop has one result. -/
theorem unique (h : Stops round s r) (h' : Stops round s r') : r = r' := by
  obtain ⟨fuel, hrun⟩ := h
  obtain ⟨fuel', hrun'⟩ := h'
  induction fuel generalizing s fuel' with
  | zero => cases hrun
  | succ fuel ih =>
    cases fuel' with
    | zero => cases hrun'
    | succ fuel' =>
      unfold rounds at hrun hrun'
      cases hround : round s with
      | inl s' =>
        rw [hround] at hrun hrun'
        exact ih hrun fuel' hrun'
      | inr r =>
        rw [hround] at hrun hrun'
        exact Option.some.inj (hrun.symm.trans hrun')

/-- A loop whose rounds all go on does not stop. -/
theorem never {I : σ → Prop} (hround : ∀ s, I s → ∃ s', round s = .inl s' ∧ I s') (h : I s) :
    ¬ Stops round s r := by
  rintro ⟨fuel, hrun⟩
  induction fuel generalizing s with
  | zero => cases hrun
  | succ fuel ih =>
    obtain ⟨s', hs, h'⟩ := hround s h
    unfold rounds at hrun
    rw [hs] at hrun
    exact ih h' hrun

end Stops

end Q2Admin
