import Mathlib.Data.List.Chain
import Q2Admin.Model.Loop
import Q2Admin.Session.Texts

/-!
# How long the strings of `va` live

Library `Q2Admin.Session`. Source `util.c:190–204`. A history of calls of `va`, between which the
program does anything that leaves the buffers and their number alone. The number of the next buffer
is kept in sixteen bits; it wraps at a multiple of eight, so the buffers are taken in turn for
ever.
-/

namespace Q2Admin

open Exec

variable {N : Nat}

/-- A call of `va`: the state in which it is made, and its format. -/
structure VaCall (N : Nat) where
  start : World N
  format : List Piece

namespace VaCall

variable {a b : VaCall N}

/-- The buffer that the call writes. -/
def slot (a : VaCall N) : Fin 8 := a.start.vaSlot

/-- No argument points into the buffer that the call writes. -/
def Apart (a : VaCall N) : Prop := .str (.ring a.slot) ∉ a.format

instance (a : VaCall N) : Decidable a.Apart := inferInstanceAs (Decidable (_ ∉ _))

/-- The state in which the call ends. -/
def finish (a : VaCall N) : World N := final (va a.format) a.start

/-- The formatted text, with the arguments as the call finds them. -/
def text (a : VaCall N) : List UInt8 := a.format.flatMap (Piece.print a.start.vaStrings)

/-- The next call finds the buffers and their number as this one has left them. -/
structure Leads (a b : VaCall N) : Prop where
  strings : b.start.vaStrings = a.finish.vaStrings
  index : b.start.vaIndex = a.finish.vaIndex

/-- A call whose arguments are elsewhere returns. -/
theorem run_of_apart (h : a.Apart) :
    (va a.format).run a.start = .ok (.ring a.slot) (a.start.formatted a.format) := va_run h

private theorem finish_of_apart (h : a.Apart) : a.finish = a.start.formatted a.format :=
  final_of_ok (run_of_apart h)

/-- The other calls stop before they have written. -/
theorem finish_of_not_apart (h : ¬ a.Apart) :
    a.finish = { a.start with vaIndex := a.start.vaIndex + 1 } := by
  have hslot : (look World.vaSlot).run a.start = .ok a.slot a.start := rfl
  have hnext : (modify fun w : World N ↦ { w with vaIndex := w.vaIndex + 1 } : M N _).run a.start =
      .ok () { a.start with vaIndex := a.start.vaIndex + 1 } := rfl
  unfold finish va
  rw [final_bind_of_ok hslot, final_bind_of_ok hnext, if_pos (not_not.mp h)]
  rfl

/-- The buffer of a call that returns holds as much of the text as fits. -/
theorem finish_own (h : a.Apart) :
    a.finish.vaStrings a.slot = a.text.take (maxStringChars - 1) := by
  rw [finish_of_apart h]
  exact Function.update_self _ _ _

/-- The other buffers are left alone. -/
theorem finish_other {p : Fin 8} (h : p ≠ a.slot) :
    a.finish.vaStrings p = a.start.vaStrings p := by
  by_cases ha : a.Apart
  · rw [finish_of_apart ha]
    exact Function.update_of_ne h _ _
  · rw [finish_of_not_apart ha]

private theorem finish_vaIndex (a : VaCall N) : a.finish.vaIndex = a.start.vaIndex + 1 := by
  by_cases ha : a.Apart
  · rw [finish_of_apart ha]
    rfl
  · rw [finish_of_not_apart ha]

/-- The buffers are taken in turn. -/
theorem Leads.slot (h : a.Leads b) : b.slot.val = (a.slot.val + 1) % 8 := by
  have hnext := vaIndex_succ a.start.vaIndex
  change b.start.vaIndex.toNat % 8 = (a.start.vaIndex.toNat % 8 + 1) % 8
  rw [h.index, finish_vaIndex]
  omega

end VaCall

section History

variable {calls : List (VaCall N)} {k : Nat} {a b : VaCall N}

private theorem leads_of_getElem? (hcalls : calls.IsChain VaCall.Leads) (ha : calls[k]? = some a)
    (hb : calls[k + 1]? = some b) : a.Leads b := by
  obtain ⟨_, rfl⟩ := List.getElem?_eq_some_iff.mp ha
  obtain ⟨hlt, rfl⟩ := List.getElem?_eq_some_iff.mp hb
  exact List.isChain_iff_getElem.mp hcalls k hlt

private theorem exists_before {j : Nat} (hb : calls[k + (j + 1)]? = some b) :
    ∃ b', calls[k + j]? = some b' := by
  obtain ⟨hlt, _⟩ := List.getElem?_eq_some_iff.mp hb
  exact ⟨calls[k + j], List.getElem?_eq_getElem _⟩

private theorem slot_later (hcalls : calls.IsChain VaCall.Leads) (ha : calls[k]? = some a)
    {j : Nat} (hb : calls[k + j]? = some b) : b.slot.val = (a.slot.val + j) % 8 := by
  induction j generalizing b with
  | zero =>
    obtain rfl := Option.some.inj (ha.symm.trans hb)
    exact (Nat.mod_eq_of_lt a.slot.isLt).symm
  | succ j ih =>
    obtain ⟨b', hb'⟩ := exists_before hb
    rw [(leads_of_getElem? hcalls hb' hb).slot, ih hb']
    omega

-- The buffer of a call keeps its string through the seven calls behind it.
private theorem string_later (hcalls : calls.IsChain VaCall.Leads) (ha : calls[k]? = some a)
    {j : Nat} (hj : j ≤ 7) (hb : calls[k + j]? = some b) :
    b.finish.vaStrings a.slot = a.finish.vaStrings a.slot := by
  induction j generalizing b with
  | zero =>
    obtain rfl := Option.some.inj (ha.symm.trans hb)
    rfl
  | succ j ih =>
    obtain ⟨b', hb'⟩ := exists_before hb
    have hslot := slot_later hcalls ha hb
    have hlt := a.slot.isLt
    have hne : a.slot ≠ b.slot := by
      intro he
      have hval := congrArg Fin.val he
      omega
    rw [VaCall.finish_other hne, (leads_of_getElem? hcalls hb' hb).strings]
    exact ih (by omega) hb'

/-- What the caller of `va` has in the pointer that it gets: the formatted text, cut to the 1023
characters that fit a buffer with a terminator. The next seven calls write other buffers and leave
it as it is, and the eighth writes its buffer. -/
structure VaCall.Lives (calls : List (VaCall N)) (k : Nat) (a : VaCall N) (p : CharPtr) :
    Prop where
  returns : (va a.format).run a.start = .ok p a.finish
  text : p.deref a.finish.vaStrings = a.text.take (maxStringChars - 1)
  terminated : (p.deref a.finish.vaStrings).length < maxStringChars
  kept : ∀ j b, 1 ≤ j → j ≤ 7 → calls[k + j]? = some b →
    p ≠ .ring b.slot ∧ p.deref b.finish.vaStrings = p.deref a.finish.vaStrings
  reused : ∀ b, calls[k + 8]? = some b → p = .ring b.slot

/-- However many calls come before it, what a call of `va` returns lives for seven more. -/
theorem va_lives (hcalls : calls.IsChain VaCall.Leads) (ha : calls[k]? = some a)
    (hapart : a.Apart) : ∃ p, a.Lives calls k p := by
  have hrun := VaCall.run_of_apart hapart
  rw [← VaCall.finish_of_apart hapart] at hrun
  refine ⟨.ring a.slot, ⟨hrun, VaCall.finish_own hapart, va_length hrun, ?_, ?_⟩⟩
  · intro j b hone hseven hb
    have hslot := slot_later hcalls ha hb
    have hlt := a.slot.isLt
    refine ⟨fun he ↦ ?_, string_later hcalls ha hseven hb⟩
    have hval := congrArg Fin.val (CharPtr.ring.inj he)
    omega
  · intro b hb
    have hslot := slot_later hcalls ha hb
    have hlt := a.slot.isLt
    exact congrArg CharPtr.ring (Fin.ext (by omega))

/-- Calls of `va` with nothing between them. -/
def vaCalls (w : World N) : List (List Piece) → List (VaCall N)
  | [] => []
  | format :: formats => ⟨w, format⟩ :: vaCalls (VaCall.finish ⟨w, format⟩) formats

private theorem isChain_vaCalls (w : World N) (formats : List (List Piece)) :
    (vaCalls w formats).IsChain VaCall.Leads := by
  induction formats generalizing w with
  | nil => exact .nil
  | cons format formats ih =>
    cases formats with
    | nil => exact .singleton _
    | cons format' formats =>
      exact List.isChain_cons_cons.mpr ⟨⟨rfl, rfl⟩, ih _⟩

end History

-- The state before a call for which the number of the buffer wraps.
private def sampleWrap : World 0 :=
  { initial (fun q2 ↦ q2.elim0) 3 fun _ ↦ ⟨0, false, false⟩ with vaIndex := 65535 }

/-- Nine calls, the last of which is the first to write the same buffer again. -/
theorem va_lives_sample : ∃ p, VaCall.Lives
    (vaCalls sampleWrap (List.replicate 9 [.text (ascii "a")])) 0
    ⟨sampleWrap, [.text (ascii "a")]⟩ p :=
  va_lives (isChain_vaCalls _ _) rfl (by decide)

end Q2Admin
