import Mathlib.Algebra.BigOperators.Group.Finset.Basic
import Mathlib.Data.Fintype.Card
import Mathlib.Data.Finset.Card
import Mathlib.Logic.Function.Basic

/-!
# Threads that share memory

General library. A thread is an index with a place in its program. `census` counts the threads
whose place has a property, `budget` adds up what the threads may still do, and `Guards` says that
a lock is held exactly by the thread whose place is in the section that the lock guards. All follow
the move of one thread, which is an update of the places at its index.
-/

namespace Q2Admin

section Census

variable {ι ρ : Type} [Fintype ι]

/-- The number of threads whose place has the property. -/
def census (p : ρ → Bool) (place : ι → ρ) : Nat :=
  (Finset.univ.filter fun i ↦ p (place i)).card

variable {p : ρ → Bool} {place : ι → ρ}

/-- The threads other than the one that moves are counted as before. -/
theorem census_update [DecidableEq ι] (p : ρ → Bool) (place : ι → ρ) (i : ι) (x : ρ) :
    census p (Function.update place i x) + (p (place i)).toNat =
      census p place + (p x).toNat := by
  have hsplit (place : ι → ρ) : census p place =
      (Finset.univ.filter fun j ↦ j ≠ i ∧ p (place j) = true).card + (p (place i)).toNat := by
    have hcard := Finset.card_filter_add_card_filter_not
      (s := Finset.univ.filter fun j ↦ p (place j) = true) (p := fun j ↦ j ≠ i)
    unfold census
    rw [← hcard, Finset.filter_filter, Finset.filter_filter]
    congr 1
    · simp only [and_comm]
    · cases hi : p (place i) with
      | true =>
        apply Finset.card_eq_one.mpr
        refine ⟨i, Finset.ext fun j ↦ ?_⟩
        simp only [Finset.mem_filter, Finset.mem_univ, Finset.mem_singleton, true_and, not_not]
        exact ⟨fun h ↦ h.2, fun h ↦ ⟨h ▸ hi, h⟩⟩
      | false =>
        apply Finset.card_eq_zero.mpr
        refine Finset.filter_eq_empty_iff.mpr fun j _ h ↦ ?_
        rw [not_not.mp h.2, hi] at h
        exact Bool.false_ne_true h.1
  have hrest : (Finset.univ.filter fun j ↦
      j ≠ i ∧ p (Function.update place i x j) = true) =
        Finset.univ.filter fun j ↦ j ≠ i ∧ p (place j) = true := by
    ext j
    by_cases hj : j = i
    · simp [hj]
    · simp [hj]
  rw [hsplit, hsplit place, hrest, Function.update_self]
  omega

/-- A thread at a counted place makes the count positive. -/
theorem census_pos {i : ι} (h : p (place i) = true) : 0 < census p place :=
  Finset.card_pos.mpr ⟨i, by simp [h]⟩

/-- Nobody is counted exactly if nobody is at such a place. -/
theorem census_eq_zero : census p place = 0 ↔ ∀ i, p (place i) = false := by
  unfold census
  simp [Finset.filter_eq_empty_iff]

/-- All are counted exactly if all are at such a place. -/
theorem census_eq_card : census p place = Fintype.card ι ↔ ∀ i, p (place i) = true := by
  unfold census
  rw [Finset.card_eq_iff_eq_univ, Finset.filter_eq_self]
  simp

end Census

section Budget

variable {ι ρ : Type} [Fintype ι]

/-- The weights of the places of all threads together. -/
def budget (weight : ρ → Nat) (place : ι → ρ) : Nat := ∑ i, weight (place i)

/-- The threads other than the one that moves weigh as before. -/
theorem budget_update [DecidableEq ι] (weight : ρ → Nat) (place : ι → ρ) (i : ι) (x : ρ) :
    budget weight (Function.update place i x) + weight (place i) =
      budget weight place + weight x := by
  have hrest : ∑ j ∈ Finset.univ.erase i, weight (Function.update place i x j) =
      ∑ j ∈ Finset.univ.erase i, weight (place j) :=
    Finset.sum_congr rfl fun j hj ↦ by rw [Function.update_of_ne (Finset.ne_of_mem_erase hj)]
  unfold budget
  rw [← Finset.sum_erase_add _ _ (Finset.mem_univ i), hrest, Function.update_self,
    ← Finset.sum_erase_add _ (fun j ↦ weight (place j)) (Finset.mem_univ i)]
  omega

end Budget

section Locks

variable {τ : Type}

/-- The lock is held by the thread that is in its section. -/
def Guards (lock : Option τ) (inside : τ → Bool) : Prop := ∀ t, lock = some t ↔ inside t = true

variable {lock : Option τ} {inside : τ → Bool} {t u : τ}

namespace Guards

/-- Two threads are not in the section at once. -/
theorem exclusive (h : Guards lock inside) (ht : inside t = true) (hu : inside u = true) :
    t = u :=
  Option.some.inj (((h t).mpr ht).symm.trans ((h u).mpr hu))

/-- While the lock is free nobody is inside. -/
theorem outside (h : Guards none inside) (t : τ) : inside t = false := by
  cases ht : inside t with
  | true => cases (h t).mpr ht
  | false => rfl

/-- A thread that takes the free lock enters the section. -/
theorem acquire [DecidableEq τ] (h : Guards none inside) (t : τ) :
    Guards (some t) (Function.update inside t true) := by
  intro u
  by_cases hu : u = t
  · simp [hu]
  · rw [Function.update_of_ne hu, h.outside u]
    simp [Ne.symm hu]

/-- A thread that leaves the section frees the lock. -/
theorem release [DecidableEq τ] (h : Guards lock inside) (ht : inside t = true) :
    Guards none (Function.update inside t false) := by
  intro u
  by_cases hu : u = t
  · simp [hu]
  · rw [Function.update_of_ne hu]
    simp only [reduceCtorEq, false_iff, Bool.not_eq_true]
    cases hin : inside u with
    | true => exact absurd (h.exclusive hin ht) hu
    | false => rfl

/-- A move that does not cross the border of the section. -/
theorem stay [DecidableEq τ] (h : Guards lock inside) {x : Bool} (hx : x = inside t) :
    Guards lock (Function.update inside t x) := by
  rw [hx, Function.update_eq_self]
  exact h

end Guards

end Locks

end Q2Admin
