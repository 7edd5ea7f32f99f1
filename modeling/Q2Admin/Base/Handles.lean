import Mathlib.Data.List.Nodup

/-!
# Life cycles of handles

General library. A program keeps handles in slots: it creates them, uses them and frees them,
and from time to time a new period begins for some of its slots. `Sound` says of the operations
of a program, newest first, that it frees and uses nothing but what it has, and forgets nothing
that it has not freed; `Sound.freed_nodup` is that no handle is freed twice.
-/

namespace Q2Admin

variable {κ : Type}

/-- What happens to the handles in slots. -/
inductive HandleOp (κ : Type)
  | create (slot : κ) (handle : Nat)
  | use (slot : κ) (handle : Nat)
  | free (slot : κ) (handle : Nat)
  /-- A new period begins for these slots. -/
  | renew (slots : κ → Bool)

/-- What a slot holds. -/
inductive Holding
  | absent
  /-- A live handle, and whether it was created in the current period. -/
  | live (handle : Nat) (current : Bool)
  | released
  deriving DecidableEq

namespace Holding

/-- The slot holds a live handle. -/
def isLive : Holding → Bool
  | live _ _ => true
  | _ => false

/-- What a slot holds when a new period has begun. -/
def age : Holding → Holding
  | live h _ => live h false
  | s => s

/-- Growing old does not free anything. -/
@[simp] theorem isLive_age (s : Holding) : s.age.isLive = s.isLive := by
  cases s <;> rfl

/-- What is live when it has grown old has been live before. -/
theorem live_of_age {s : Holding} {h : Nat} {current : Bool} (hs : s.age = live h current) :
    ∃ current, s = live h current := by
  cases s with
  | live h' b =>
    cases hs
    exact ⟨b, rfl⟩
  | _ => cases hs

end Holding

namespace HandleOp

variable [DecidableEq κ]

/-- What a slot holds after some operations. -/
def holding (slot : κ) : List (HandleOp κ) → Holding
  | [] => .absent
  | create s h :: ops => if s = slot then .live h true else holding slot ops
  | use _ _ :: ops => holding slot ops
  | free s _ :: ops => if s = slot then .released else holding slot ops
  | renew slots :: ops => if slots slot then (holding slot ops).age else holding slot ops

/-- The handle that an operation frees. -/
def freed : HandleOp κ → Option Nat
  | free _ h => some h
  | _ => none

/-- Handles are created under new numbers and in slots that hold no live one, they are used while
they are live and in the period in which they were created, and freed while they are live. -/
def Sound : List (HandleOp κ) → Prop
  | [] => True
  | create s h :: ops =>
    Sound ops ∧ (holding s ops).isLive = false ∧ ∀ s', create s' h ∉ ops
  | use s h :: ops => Sound ops ∧ holding s ops = .live h true
  | free s h :: ops => Sound ops ∧ ∃ current, holding s ops = .live h current
  | renew _ :: ops => Sound ops

/-- An operation changes what a slot holds. -/
def touches (slot : κ) : HandleOp κ → Bool
  | create s _ | free s _ => s = slot
  | use _ _ => false
  | renew slots => slots slot

/-- Operations on other slots. -/
theorem holding_append {slot : κ} {l ops : List (HandleOp κ)}
    (hl : ∀ op ∈ l, op.touches slot = false) : holding slot (l ++ ops) = holding slot ops := by
  induction l with
  | nil => rfl
  | cons op l ih =>
    rw [← ih fun op hop ↦ hl op (List.mem_cons_of_mem _ hop)]
    have hop := hl op List.mem_cons_self
    cases op with
    | use s h => rfl
    | renew slots => exact if_neg (by simpa [touches] using hop)
    | _ => exact if_neg (by simpa [touches] using hop)

/-- A sound list of operations begins with a sound one: the newest comes first. -/
theorem Sound.tail {op : HandleOp κ} {ops : List (HandleOp κ)} (h : Sound (op :: ops)) :
    Sound ops := by
  cases op with
  | renew slots => exact h
  | _ => exact h.1

/-- What is live has been created. -/
theorem created_of_live {slot : κ} {ops : List (HandleOp κ)} {h : Nat} {current : Bool}
    (hs : holding slot ops = .live h current) : create slot h ∈ ops := by
  induction ops generalizing current with
  | nil => cases hs
  | cons op ops ih =>
    cases op with
    | create s h' =>
      change (if s = slot then _ else _) = _ at hs
      split at hs
      · next he =>
        cases hs
        rw [he]
        exact List.mem_cons_self
      · exact List.mem_cons_of_mem _ (ih hs)
    | use s h' => exact List.mem_cons_of_mem _ (ih hs)
    | free s h' =>
      change (if s = slot then _ else _) = _ at hs
      split at hs
      · cases hs
      · exact List.mem_cons_of_mem _ (ih hs)
    | renew slots =>
      change (if slots slot then _ else _) = _ at hs
      split at hs
      · obtain ⟨b, hb⟩ := Holding.live_of_age hs
        exact List.mem_cons_of_mem _ (ih hb)
      · exact List.mem_cons_of_mem _ (ih hs)

namespace Sound

variable {ops : List (HandleOp κ)} (hops : Sound ops)
include hops

/-- No handle is created twice. -/
theorem slot_unique {s s' : κ} {h : Nat} (hs : create s h ∈ ops) (hs' : create s' h ∈ ops) :
    s = s' := by
  induction ops with
  | nil => cases hs
  | cons op ops ih =>
    rcases List.mem_cons.mp hs with rfl | hmem
    · rcases List.mem_cons.mp hs' with he | hmem'
      · cases he
        rfl
      · exact absurd hmem' (hops.2.2 s')
    · rcases List.mem_cons.mp hs' with rfl | hmem'
      · exact absurd hmem (hops.2.2 s)
      · exact ih hops.tail hmem hmem'

/-- What has been freed was created in its slot. -/
theorem created_of_freed {s : κ} {h : Nat} (hs : free s h ∈ ops) : create s h ∈ ops := by
  induction ops with
  | nil => cases hs
  | cons op ops ih =>
    rcases List.mem_cons.mp hs with rfl | hmem
    · obtain ⟨_, hlive⟩ := hops.2
      exact List.mem_cons_of_mem _ (created_of_live hlive)
    · exact List.mem_cons_of_mem _ (ih hops.tail hmem)

/-- What has been freed is not live any more. -/
theorem not_live_of_freed {s slot : κ} {h : Nat} {current : Bool} (hs : free s h ∈ ops) :
    holding slot ops ≠ .live h current := by
  induction ops generalizing current with
  | nil => cases hs
  | cons op ops ih =>
    intro hlive
    have hrest (hmem : free s h ∈ ops) {b : Bool} : holding slot ops ≠ .live h b :=
      ih hops.tail hmem
    cases op with
    | create s' h' =>
      have hmem : free s h ∈ ops := List.mem_of_ne_of_mem (by simp) hs
      change (if s' = slot then _ else _) = _ at hlive
      split at hlive
      · cases hlive
        exact hops.2.2 s (hops.tail.created_of_freed hmem)
      · exact hrest hmem hlive
    | use s' h' => exact hrest (List.mem_of_ne_of_mem (by simp) hs) hlive
    | free s' h' =>
      change (if s' = slot then _ else _) = _ at hlive
      split at hlive
      · cases hlive
      · next hne =>
        rcases List.mem_cons.mp hs with he | hmem
        · cases he
          obtain ⟨_, hfreed⟩ := hops.2
          exact hne (hops.tail.slot_unique (created_of_live hfreed) (created_of_live hlive))
        · exact hrest hmem hlive
    | renew slots =>
      have hmem : free s h ∈ ops := List.mem_of_ne_of_mem (by simp) hs
      change (if slots slot then _ else _) = _ at hlive
      split at hlive
      · obtain ⟨b, hb⟩ := Holding.live_of_age hlive
        exact hrest hmem hb
      · exact hrest hmem hlive

/-- No handle is freed twice. -/
theorem freed_nodup : (ops.filterMap freed).Nodup := by
  induction ops with
  | nil => exact List.nodup_nil
  | cons op ops ih =>
    have hrest := ih hops.tail
    cases op with
    | free s h =>
      refine List.nodup_cons.mpr ⟨fun hmem ↦ ?_, hrest⟩
      obtain ⟨op, hop, hfreed⟩ := List.mem_filterMap.mp hmem
      obtain ⟨_, hlive⟩ := hops.2
      cases op with
      | free s' h' =>
        cases hfreed
        exact hops.tail.not_live_of_freed hop hlive
      | _ => cases hfreed
    | _ => exact hrest

end Sound

end HandleOp

end Q2Admin
