import Mathlib.Logic.Function.Basic
import Mathlib.Data.Fin.Basic

/-!
# Rings of slots

General library. Values are written to the slots of a ring one after another. A slot keeps its
value until the writes come round to it again: `fillRing_of_ne`, `fillRing_mem`.
-/

namespace Q2Admin

variable {α : Type} {n : Nat}

/-- Write a value to the slot at a position of a ring. -/
def writeRing (slots : Fin n → α) (i : Nat) (a : α) : Fin n → α := fun p ↦
  if i % n = p.val then a else slots p

/-- The slot that is written is the remainder of the counter. -/
theorem writeRing_eq_update (slots : Fin n → α) {i : Nat} {p : Fin n} (h : i % n = p.val) (a : α) :
    writeRing slots i a = Function.update slots p a := by
  funext q
  unfold writeRing
  by_cases hq : q = p
  · rw [hq, Function.update_self, if_pos h]
  · rw [Function.update_of_ne hq, if_neg fun he ↦ hq (Fin.ext (he.symm.trans h))]

/-- Write the values of a list to successive slots of a ring, from position `i` on. -/
def fillRing (slots : Fin n → α) : Nat → List α → Fin n → α
  | _, [] => slots
  | i, a :: l => fillRing (writeRing slots i a) (i + 1) l

/-- A slot that the writes do not come to keeps its value. -/
theorem fillRing_of_ne {slots : Fin n → α} {i : Nat} {l : List α} {p : Fin n}
    (h : ∀ j, j < l.length → (i + j) % n ≠ p) : fillRing slots i l p = slots p := by
  induction l generalizing slots i with
  | nil => rfl
  | cons a l ih =>
    have hlater (j : Nat) (hj : j < l.length) : (i + 1 + j) % n ≠ p := by
      rw [Nat.add_right_comm]
      exact h (j + 1) (Nat.succ_lt_succ hj)
    have hfirst : i % n ≠ p.val := h 0 (Nat.succ_pos _)
    unfold fillRing
    rw [ih hlater]
    exact if_neg hfirst

/-- A slot that the writes come to holds one of the values. -/
theorem fillRing_mem {slots : Fin n → α} {i : Nat} {l : List α} {p : Fin n}
    (h : ∃ j, j < l.length ∧ (i + j) % n = p) : fillRing slots i l p ∈ l := by
  induction l generalizing slots i with
  | nil =>
    obtain ⟨j, hj, _⟩ := h
    cases hj
  | cons a l ih =>
    unfold fillRing
    by_cases hlater : ∃ j, j < l.length ∧ (i + 1 + j) % n = p
    · exact List.mem_cons_of_mem a (ih hlater)
    · -- The first value is the last one that the slot gets.
      obtain ⟨j, hj, hp⟩ := h
      cases j with
      | succ j =>
        refine absurd ⟨j, Nat.lt_of_succ_lt_succ hj, ?_⟩ hlater
        rw [← hp, Nat.add_right_comm]
        rfl
      | zero =>
        have hkept : fillRing (writeRing slots i a) (i + 1) l p = writeRing slots i a p :=
          fillRing_of_ne fun j hj hp ↦ hlater ⟨j, hj, hp⟩
        have hfirst : writeRing slots i a p = a := if_pos hp
        rw [hkept, hfirst]
        exact List.mem_cons_self

/-- Positions that agree modulo the size of the ring are the same. -/
theorem fillRing_congr (slots : Fin n → α) {i j : Nat} (h : i % n = j % n) (l : List α) :
    fillRing slots i l = fillRing slots j l := by
  induction l generalizing slots i j with
  | nil => rfl
  | cons a l ih =>
    have hwrite : writeRing slots i a = writeRing slots j a := by
      unfold writeRing
      rw [h]
    unfold fillRing
    rw [hwrite]
    apply ih
    rw [Nat.add_mod, h, ← Nat.add_mod]

end Q2Admin
