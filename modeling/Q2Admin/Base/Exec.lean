import Mathlib.Logic.Relation

/-!
# Runs of stateful programs that may fault

General library. A program is an `EStateM`: it returns a value and a state, or it
faults and leaves the state it had reached. `Preserves` is the invariant rule for
such programs, `Keeps` the frame rule for an observation of the state, and `zoom`
runs a program on one component of a larger state through a lens. `Moves` describes a
program by the elementary changes that its runs are chains of. `Mirrors` relates two runs
of one program, and `Splits` separates what a program reads from what it does.
-/

namespace Q2Admin.Exec

variable {ε σ τ α β ν : Type}

/-- The state in which a run ends, whether it returned or faulted. -/
def final (x : EStateM ε σ α) (s : σ) : σ :=
  match x.run s with
  | .ok _ s' => s'
  | .error _ s' => s'

/-- The state in which a run returns, if it does. -/
def returned (x : EStateM ε σ α) (s : σ) : Option σ :=
  match x.run s with
  | .ok _ s' => some s'
  | .error _ _ => none

/-- A run that returns in a state with whatever was tested. -/
theorem exists_of_returned {x : EStateM ε σ α} {s : σ} {p : σ → Bool}
    (h : (returned x s).any p = true) : ∃ a s', x.run s = .ok a s' ∧ p s' = true := by
  unfold returned at h
  cases hx : x.run s with
  | ok a s' =>
    rw [hx] at h
    exact ⟨a, s', rfl, h⟩
  | error e s' =>
    rw [hx] at h
    cases h

/-- Runs with the same outcome end in the same state. -/
theorem final_congr {x y : EStateM ε σ α} {s t : σ} (h : x.run s = y.run t) :
    final x s = final y t := by
  unfold final
  rw [h]

/-- A returning run ends in the returned state. -/
theorem final_of_ok {x : EStateM ε σ α} {s s' : σ} {a : α} (h : x.run s = .ok a s') :
    final x s = s' := by
  simp only [final, h]

/-- A faulting run ends in the state of the fault. -/
theorem final_of_error {x : EStateM ε σ α} {s s' : σ} {e : ε} (h : x.run s = .error e s') :
    final x s = s' := by
  simp only [final, h]

/-- A sequence whose first part returns ends where its second part ends. -/
theorem final_bind_of_ok {x : EStateM ε σ α} {f : α → EStateM ε σ β} {s s' : σ} {a : α}
    (h : x.run s = .ok a s') : final (x >>= f) s = final (f a) s' := by
  simp only [final, EStateM.run_bind, h]

/-- A sequence whose first part faults ends at that fault. -/
theorem final_bind_of_error {x : EStateM ε σ α} {f : α → EStateM ε σ β} {s s' : σ} {e : ε}
    (h : x.run s = .error e s') : final (x >>= f) s = s' := by
  simp only [final, EStateM.run_bind, h]

/-- A returning sequence has returned from its first part. -/
theorem run_bind_ok {x : EStateM ε σ α} {f : α → EStateM ε σ β} {s s'' : σ} {b : β}
    (h : (x >>= f).run s = .ok b s'') :
    ∃ a s', x.run s = .ok a s' ∧ (f a).run s' = .ok b s'' := by
  rw [EStateM.run_bind] at h
  cases hx : x.run s with
  | ok a s' => exact ⟨a, s', rfl, by simpa only [hx] using h⟩
  | error e s' => simp only [hx, reduceCtorEq] at h

/-- A faulting sequence has faulted in its first part, or in its second one. -/
theorem run_bind_error {x : EStateM ε σ α} {f : α → EStateM ε σ β} {s s'' : σ} {e : ε}
    (h : (x >>= f).run s = .error e s'') :
    x.run s = .error e s'' ∨ ∃ a s', x.run s = .ok a s' ∧ (f a).run s' = .error e s'' := by
  rw [EStateM.run_bind] at h
  cases hx : x.run s with
  | ok a s' => exact .inr ⟨a, s', rfl, by simpa only [hx] using h⟩
  | error e' s' =>
    rw [hx] at h
    cases h
    exact .inl rfl

/-- Sequencing rewrites along the result of the first part. -/
theorem run_bind_of_ok {x : EStateM ε σ α} {f : α → EStateM ε σ β} {s s' : σ} {a : α}
    (h : x.run s = .ok a s') : (x >>= f).run s = (f a).run s' := by
  simp only [EStateM.run_bind, h]

/-- Sequencing rewrites along the fault of the first part. -/
theorem run_bind_of_error {x : EStateM ε σ α} {f : α → EStateM ε σ β} {s s' : σ} {e : ε}
    (h : x.run s = .error e s') : (x >>= f).run s = .error e s' := by
  simp only [EStateM.run_bind, h]

/-- Sequences agree when their second parts agree wherever the first part returns. -/
theorem run_bind_congr {x : EStateM ε σ α} {f g : α → EStateM ε σ β} {s : σ}
    (h : ∀ a s', x.run s = .ok a s' → (f a).run s' = (g a).run s') :
    (x >>= f).run s = (x >>= g).run s := by
  cases hx : x.run s with
  | ok a s' => rw [run_bind_of_ok hx, run_bind_of_ok hx, h a s' hx]
  | error e s' => rw [run_bind_of_error hx, run_bind_of_error hx]

/-- A returning loop over two lists has returned from the first one. -/
theorem run_forM_append_ok {l l' : List α} {f : α → EStateM ε σ PUnit} {s s'' : σ}
    (h : (forM (l ++ l') f).run s = .ok () s'') :
    ∃ s', (forM l f).run s = .ok () s' ∧ (forM l' f).run s' = .ok () s'' := by
  rw [List.forM_append] at h
  obtain ⟨_, s', h₁, h₂⟩ := run_bind_ok h
  exact ⟨s', h₁, h₂⟩

/-! ### Returning -/

/-- The run from a state returns. -/
def Returns (x : EStateM ε σ α) (s : σ) : Prop := ∃ a s', x.run s = .ok a s'

/-- A run with a result returns. -/
theorem Returns.of_ok {x : EStateM ε σ α} {s s' : σ} {a : α} (h : x.run s = .ok a s') :
    Returns x s := ⟨a, s', h⟩

/-- A run with a fault does not return. -/
theorem not_returns {x : EStateM ε σ α} {s s' : σ} {e : ε} (h : x.run s = .error e s') :
    ¬ Returns x s := by
  rintro ⟨a, t, ht⟩
  cases h.symm.trans ht

/-- Runs with the same outcome return together. -/
theorem returns_congr {x y : EStateM ε σ α} {s t : σ} (h : x.run s = y.run t) :
    Returns x s ↔ Returns y t := by
  unfold Returns
  rw [h]

/-- A sequence whose first part returns does so exactly if its second part does from there. -/
theorem returns_bind_of_ok {x : EStateM ε σ α} {f : α → EStateM ε σ β} {s s' : σ} {a : α}
    (h : x.run s = .ok a s') : Returns (x >>= f) s ↔ Returns (f a) s' := by
  unfold Returns
  rw [run_bind_of_ok h]

/-- If a sequence returns, then so does its first part. -/
theorem Returns.of_bind {x : EStateM ε σ α} {f : α → EStateM ε σ β} {s : σ}
    (h : Returns (x >>= f) s) : Returns x s := by
  obtain ⟨_, _, h⟩ := h
  obtain ⟨a, s', hx, _⟩ := run_bind_ok h
  exact ⟨a, s', hx⟩

/-- If a sequence returns, then so does its second part from some state. -/
theorem Returns.of_bind_right {x : EStateM ε σ α} {f : α → EStateM ε σ β} {s : σ}
    (h : Returns (x >>= f) s) : ∃ a s', Returns (f a) s' := by
  obtain ⟨b, s'', h⟩ := h
  obtain ⟨a, s', _, hf⟩ := run_bind_ok h
  exact ⟨a, s', .of_ok hf⟩

/-- A program behind which nothing can fail. -/
theorem returns_bind_iff {x : EStateM ε σ α} {f : α → EStateM ε σ β} {s : σ}
    (hf : ∀ a s', x.run s = .ok a s' → Returns (f a) s') :
    Returns (x >>= f) s ↔ Returns x s := by
  refine ⟨Returns.of_bind, ?_⟩
  rintro ⟨a, s', hx⟩
  exact (returns_bind_of_ok hx).mpr (hf a s' hx)

/-- A result that is only replaced does not matter to returning. -/
theorem returns_bind_pure {x : EStateM ε σ α} {b : β} {s : σ} :
    Returns (x >>= fun _ ↦ pure b) s ↔ Returns x s :=
  returns_bind_iff fun _ s' _ ↦ ⟨b, s', rfl⟩

/-- Every round of a loop meets a condition in the state that the rounds before it leave. -/
def EachRound (f : α → EStateM ε σ PUnit) (P : α → σ → Prop) : List α → σ → Prop
  | [], _ => True
  | a :: l, s => P a s ∧ ∀ s', (f a).run s = .ok ⟨⟩ s' → EachRound f P l s'

/-- A loop returns exactly if every round meets the condition under which a round returns from
the states that the rounds keep to. -/
theorem returns_forM_iff {I : σ → Prop} {P : α → σ → Prop} {l : List α}
    {f : α → EStateM ε σ PUnit} (hf : ∀ a s, I s → (Returns (f a) s ↔ P a s))
    (hI : ∀ a s s', I s → (f a).run s = .ok ⟨⟩ s' → I s') {s : σ} (h : I s) :
    Returns (forM l f) s ↔ EachRound f P l s := by
  induction l generalizing s with
  | nil => exact ⟨fun _ ↦ trivial, fun _ ↦ ⟨_, _, rfl⟩⟩
  | cons a l ih =>
    rw [List.forM_cons]
    constructor
    · intro hall
      refine ⟨(hf a s h).mp hall.of_bind, fun s' hrun ↦ ?_⟩
      exact (ih (hI a s s' h hrun)).mp ((returns_bind_of_ok hrun).mp hall)
    · rintro ⟨hround, hrest⟩
      obtain ⟨_, s', hrun⟩ := (hf a s h).mpr hround
      exact (returns_bind_of_ok hrun).mpr ((ih (hI a s s' h hrun)).mpr (hrest s' hrun))

/-! ### Invariants -/

/-- Every run from a state with `I` ends in a state with `I`, faulting runs included. -/
def Preserves (I : σ → Prop) (x : EStateM ε σ α) : Prop :=
  ∀ s, I s → I (final x s)

variable {I : σ → Prop}

/-- Returning a value changes no state. -/
theorem preserves_pure (a : α) : Preserves I (pure a : EStateM ε σ α) := fun _ h ↦ h

/-- Sequencing: each part preserves the invariant. -/
theorem preserves_bind {x : EStateM ε σ α} {f : α → EStateM ε σ β}
    (hx : Preserves I x) (hf : ∀ a, Preserves I (f a)) : Preserves I (x >>= f) := by
  intro s h
  have hs := hx s h
  cases hr : x.run s with
  | ok a s' =>
    rw [final_bind_of_ok hr]
    rw [final_of_ok hr] at hs
    exact hf a s' hs
  | error e s' =>
    rw [final_bind_of_error hr]
    rwa [final_of_error hr] at hs

/-- A loop over a list preserves what its body preserves. -/
theorem preserves_forM {l : List α} {f : α → EStateM ε σ PUnit}
    (hf : ∀ a ∈ l, Preserves I (f a)) : Preserves I (forM l f) := by
  induction l with
  | nil => exact preserves_pure _
  | cons a l ih =>
    simp only [List.forM_cons]
    exact preserves_bind (hf a List.mem_cons_self)
      fun _ ↦ ih fun b hb ↦ hf b (List.mem_cons_of_mem a hb)

/-- A loop with an accumulator preserves what its body preserves. -/
theorem preserves_foldlM {l : List α} {f : β → α → EStateM ε σ β}
    (hf : ∀ b, ∀ a ∈ l, Preserves I (f b a)) (b : β) : Preserves I (l.foldlM f b) := by
  induction l generalizing b with
  | nil => exact preserves_pure _
  | cons a l ih =>
    simp only [List.foldlM_cons]
    exact preserves_bind (hf b a List.mem_cons_self)
      fun b' ↦ ih (fun b'' c hc ↦ hf b'' c (List.mem_cons_of_mem a hc)) b'

/-- A loop that returns keeps what its rounds keep of the state. -/
theorem forM_ok {P : σ → Prop} {l : List α} {f : α → EStateM ε σ PUnit}
    (hf : ∀ a ∈ l, ∀ s s', P s → (f a).run s = .ok ⟨⟩ s' → P s') {s s' : σ} (h : P s)
    (hrun : (forM l f).run s = .ok ⟨⟩ s') : P s' := by
  induction l generalizing s with
  | nil =>
    cases hrun
    exact h
  | cons a l ih =>
    rw [List.forM_cons] at hrun
    obtain ⟨_, s₁, h₁, hrun⟩ := run_bind_ok hrun
    exact ih (fun b hb ↦ hf b (List.mem_cons_of_mem a hb)) (hf a List.mem_cons_self s s₁ h h₁) hrun

/-- An observation on which every round acts is folded by a loop that returns. -/
theorem forM_foldl {ν : Type} {v : σ → ν} {g : ν → α → ν} {l : List α}
    {f : α → EStateM ε σ PUnit} (hf : ∀ a s s', (f a).run s = .ok ⟨⟩ s' → v s' = g (v s) a)
    {s s' : σ} (hrun : (forM l f).run s = .ok ⟨⟩ s') : v s' = l.foldl g (v s) := by
  induction l generalizing s with
  | nil =>
    cases hrun
    rfl
  | cons a l ih =>
    rw [List.forM_cons] at hrun
    obtain ⟨_, s₁, h₁, hrun⟩ := run_bind_ok hrun
    rw [ih hrun, hf a s s₁ h₁, List.foldl_cons]

/-- A loop that returns keeps what its rounds keep of the accumulator and the state. -/
theorem foldlM_ok {P : β → σ → Prop} {l : List α} {f : β → α → EStateM ε σ β}
    (hf : ∀ a ∈ l, ∀ b s b' s', P b s → (f b a).run s = .ok b' s' → P b' s') {b b' : β} {s s' : σ}
    (h : P b s) (hrun : (l.foldlM f b).run s = .ok b' s') : P b' s' := by
  induction l generalizing b s with
  | nil =>
    cases hrun
    exact h
  | cons a l ih =>
    rw [List.foldlM_cons] at hrun
    obtain ⟨b₁, s₁, h₁, hrun⟩ := run_bind_ok hrun
    have hround := hf a List.mem_cons_self b s b₁ s₁ h h₁
    exact ih (fun c hc ↦ hf c (List.mem_cons_of_mem a hc)) hround hrun

/-! ### Frames -/

/-- No run changes the observation `v` of the state. -/
def Keeps (v : σ → ν) (x : EStateM ε σ α) : Prop :=
  ∀ s, v (final x s) = v s

variable {v : σ → ν}

/-- A frame is an invariant for every value of the observation. -/
theorem keeps_iff {x : EStateM ε σ α} : Keeps v x ↔ ∀ a, Preserves (fun s ↦ v s = a) x := by
  constructor
  · rintro h a s rfl
    exact h s
  · intro h s
    exact h (v s) s rfl

/-- A returning run of a program that keeps an observation ends with the same one. -/
theorem Keeps.ok {x : EStateM ε σ α} (h : Keeps v x) {s s' : σ} {a : α}
    (hx : x.run s = .ok a s') : v s' = v s := by
  have hs := h s
  rwa [final_of_ok hx] at hs

/-- A result keeps every view. -/
theorem keeps_pure (a : α) : Keeps v (pure a : EStateM ε σ α) := fun _ ↦ rfl

/-- A fault keeps every view. -/
theorem keeps_throw (e : ε) : Keeps v (throw e : EStateM ε σ α) := fun _ ↦ rfl

/-- Looking at the state keeps every view. -/
theorem keeps_get : Keeps v (get : EStateM ε σ σ) := fun _ ↦ rfl

/-- An update keeps what its function does not touch. -/
theorem keeps_modify {f : σ → σ} (h : ∀ s, v (f s) = v s) :
    Keeps v (modify f : EStateM ε σ PUnit) := h

/-- Sequencing keeps what each part keeps. -/
theorem keeps_bind {x : EStateM ε σ α} {f : α → EStateM ε σ β}
    (hx : Keeps v x) (hf : ∀ a, Keeps v (f a)) : Keeps v (x >>= f) :=
  keeps_iff.mpr fun a ↦ preserves_bind (keeps_iff.mp hx a) fun b ↦ keeps_iff.mp (hf b) a

/-- A branch keeps what both of its arms keep. -/
theorem keeps_ite {p : Prop} [Decidable p] {x y : EStateM ε σ α}
    (hx : Keeps v x) (hy : Keeps v y) : Keeps v (if p then x else y) := by
  split
  · exact hx
  · exact hy

/-- A loop keeps what its rounds keep. -/
theorem keeps_forM {l : List α} {f : α → EStateM ε σ PUnit} (hf : ∀ a ∈ l, Keeps v (f a)) :
    Keeps v (forM l f) :=
  keeps_iff.mpr fun b ↦ preserves_forM fun a ha ↦ keeps_iff.mp (hf a ha) b

/-- A loop with an accumulator keeps what its rounds keep. -/
theorem keeps_foldlM {l : List α} {f : β → α → EStateM ε σ β}
    (hf : ∀ b, ∀ a ∈ l, Keeps v (f b a)) (b : β) : Keeps v (l.foldlM f b) :=
  keeps_iff.mpr fun c ↦ preserves_foldlM (fun b' a ha ↦ keeps_iff.mp (hf b' a ha) c) b

/-! ### Chains of changes -/

/-- Every run, faulting runs included, is a chain of changes. -/
def Moves (C : σ → σ → Prop) (x : EStateM ε σ α) : Prop :=
  ∀ s, Relation.ReflTransGen C s (final x s)

variable {C : σ → σ → Prop}

/-- A result takes no move. -/
theorem moves_pure (a : α) : Moves C (pure a : EStateM ε σ α) := fun _ ↦ .refl

/-- A fault takes no move. -/
theorem moves_throw (e : ε) : Moves C (throw e : EStateM ε σ α) := fun _ ↦ .refl

/-- An update is a change. -/
theorem moves_modify {f : σ → σ} (h : ∀ s, C s (f s)) :
    Moves C (modify f : EStateM ε σ PUnit) := fun s ↦ .single (h s)

/-- Sequencing puts one chain behind the other. -/
theorem moves_bind {x : EStateM ε σ α} {f : α → EStateM ε σ β}
    (hx : Moves C x) (hf : ∀ a, Moves C (f a)) : Moves C (x >>= f) := by
  intro s
  have hs := hx s
  cases hr : x.run s with
  | ok a s' =>
    rw [final_bind_of_ok hr]
    rw [final_of_ok hr] at hs
    exact hs.trans (hf a s')
  | error e s' =>
    rw [final_bind_of_error hr]
    rwa [final_of_error hr] at hs

/-- A branch moves as its sides do. -/
theorem moves_ite {p : Prop} [Decidable p] {x y : EStateM ε σ α}
    (hx : Moves C x) (hy : Moves C y) : Moves C (if p then x else y) := by
  split
  · exact hx
  · exact hy

/-- A loop moves as its rounds do. -/
theorem moves_forM {l : List α} {f : α → EStateM ε σ PUnit} (hf : ∀ a ∈ l, Moves C (f a)) :
    Moves C (forM l f) := by
  induction l with
  | nil => exact moves_pure _
  | cons a l ih =>
    rw [List.forM_cons]
    apply moves_bind (hf a List.mem_cons_self)
    intro _
    exact ih fun b hb ↦ hf b (List.mem_cons_of_mem a hb)

/-- A loop with an accumulator moves as its rounds do. -/
theorem moves_foldlM {l : List α} {f : β → α → EStateM ε σ β}
    (hf : ∀ b, ∀ a ∈ l, Moves C (f b a)) (b : β) : Moves C (l.foldlM f b) := by
  induction l generalizing b with
  | nil => exact moves_pure _
  | cons a l ih =>
    rw [List.foldlM_cons]
    apply moves_bind (hf b a List.mem_cons_self)
    intro b'
    exact ih (fun b'' c hc ↦ hf b'' c (List.mem_cons_of_mem a hc)) b'

/-- What every change preserves, the program preserves. -/
theorem Moves.preserves {x : EStateM ε σ α} (h : Moves C x)
    (hI : ∀ s t, C s t → I s → I t) : Preserves I x := by
  intro s hs
  have hchain := h s
  generalize final x s = t at hchain
  induction hchain with
  | refl => exact hs
  | tail _ hstep ih => exact hI _ _ hstep ih

/-- What no change shows in, the program keeps. -/
theorem Moves.keeps {x : EStateM ε σ α} (h : Moves C x) (hv : ∀ s t, C s t → v t = v s) :
    Keeps v x := by
  rw [keeps_iff]
  intro a
  exact h.preserves fun s t hc hs ↦ (hv s t hc).trans hs

/-! ### Running on a component -/

/-- A component of a state: how to read it, how to replace it, and the laws of a lens. -/
structure Lens (σ τ : Type) where
  get : σ → τ
  set : τ → σ → σ
  get_set : ∀ t s, get (set t s) = t
  set_get : ∀ s, set (get s) s = s
  set_set : ∀ t t' s, set t (set t' s) = set t s

/-- Run a program of the component on the whole state. -/
def zoom (l : Lens σ τ) (x : EStateM ε τ α) : EStateM ε σ α := fun s ↦
  match x.run (l.get s) with
  | .ok a t => .ok a (l.set t s)
  | .error e t => .error e (l.set t s)

/-- A program on a part of the state runs there and puts its part back. -/
theorem run_zoom (l : Lens σ τ) (x : EStateM ε τ α) (s : σ) :
    (zoom l x).run s =
      match x.run (l.get s) with
      | .ok a t => .ok a (l.set t s)
      | .error e t => .error e (l.set t s) := rfl

/-- A returning program of the component returns on the whole state. -/
theorem run_zoom_of_ok {l : Lens σ τ} {x : EStateM ε τ α} {s : σ} {a : α} {t : τ}
    (h : x.run (l.get s) = .ok a t) : (zoom l x).run s = .ok a (l.set t s) := by
  simp only [run_zoom, h]

/-- A program on a part of the state returns only from a part where it returns. -/
theorem Returns.of_zoom {l : Lens σ τ} {x : EStateM ε τ α} {s : σ} (h : Returns (zoom l x) s) :
    Returns x (l.get s) := by
  obtain ⟨a, s', h⟩ := h
  rw [run_zoom] at h
  split at h
  · next t hx => exact .of_ok hx
  · cases h

/-- The component's final state is put back, whatever the outcome. -/
theorem final_zoom (l : Lens σ τ) (x : EStateM ε τ α) (s : σ) :
    final (zoom l x) s = l.set (final x (l.get s)) s := by
  cases h : x.run (l.get s) with
  | ok a t => simp only [final, run_zoom, h]
  | error e t => simp only [final, run_zoom, h]

/-- Zooming in keeps every observation that does not depend on the component. -/
theorem keeps_zoom {l : Lens σ τ} {x : EStateM ε τ α} (h : ∀ t s, v (l.set t s) = v s) :
    Keeps v (zoom l x) := fun s ↦ by
  rw [final_zoom, h]

/-- Zooming in on a sequence is the sequence of the two zooms. -/
theorem zoom_bind (l : Lens σ τ) (x : EStateM ε τ α) (f : α → EStateM ε τ β) :
    zoom l (x >>= f) = zoom l x >>= fun a ↦ zoom l (f a) := by
  funext s
  change (zoom l (x >>= f)).run s = (zoom l x >>= fun a ↦ zoom l (f a)).run s
  rw [run_zoom, EStateM.run_bind, EStateM.run_bind, run_zoom]
  cases x.run (l.get s) with
  | ok a t => simp only [run_zoom, l.get_set, l.set_set]
  | error e t => rfl

/-- Zooming in on a returned value returns it. -/
theorem zoom_pure (l : Lens σ τ) (a : α) :
    zoom l (pure a : EStateM ε τ α) = pure a := by
  funext s
  change EStateM.Result.ok a (l.set (l.get s) s) = EStateM.Result.ok a s
  rw [l.set_get]

/-! ### Two runs side by side -/

/-- Both outcomes return the same value or stop with the same fault, in related states. -/
def Related (R : σ → σ → Prop) : EStateM.Result ε σ α → EStateM.Result ε σ α → Prop
  | .ok a s, .ok b t => a = b ∧ R s t
  | .error e s, .error f t => e = f ∧ R s t
  | _, _ => False

/-- From related states the program has related outcomes. -/
def Mirrors (R : σ → σ → Prop) (x : EStateM ε σ α) : Prop :=
  ∀ s t, R s t → Related R (x.run s) (x.run t)

variable {R : σ → σ → Prop}

/-- A returning run is mirrored by one that returns the same value. -/
theorem Mirrors.ok {x : EStateM ε σ α} (h : Mirrors R x) {s t s' : σ} {a : α} (hst : R s t)
    (hx : x.run s = .ok a s') : ∃ t', x.run t = .ok a t' ∧ R s' t' := by
  have hr := h s t hst
  rw [hx] at hr
  cases ht : x.run t with
  | ok b t' =>
    rw [ht] at hr
    exact ⟨t', by rw [hr.1], hr.2⟩
  | error e t' =>
    rw [ht] at hr
    exact hr.elim

/-- The states in which the two runs end are related. -/
theorem Mirrors.final {x : EStateM ε σ α} (h : Mirrors R x) {s t : σ} (hst : R s t) :
    R (final x s) (final x t) := by
  have hr := h s t hst
  unfold Exec.final
  cases hs : x.run s with
  | ok a s' =>
    cases ht : x.run t with
    | ok b t' =>
      rw [hs, ht] at hr
      exact hr.2
    | error e t' =>
      rw [hs, ht] at hr
      exact hr.elim
  | error e s' =>
    cases ht : x.run t with
    | ok b t' =>
      rw [hs, ht] at hr
      exact hr.elim
    | error f t' =>
      rw [hs, ht] at hr
      exact hr.2

/-- A result mirrors every relation. -/
theorem mirrors_pure (a : α) : Mirrors R (pure a : EStateM ε σ α) := fun _ _ h ↦ ⟨rfl, h⟩

/-- A fault mirrors every relation. -/
theorem mirrors_throw (e : ε) : Mirrors R (throw e : EStateM ε σ α) := fun _ _ h ↦ ⟨rfl, h⟩

/-- Reading what related states share. -/
theorem mirrors_get_pure {v : σ → α} (h : ∀ s t, R s t → v s = v t) :
    Mirrors R (do let s ← get; pure (v s) : EStateM ε σ α) := fun s t hst ↦ ⟨h s t hst, hst⟩

/-- An update that takes related states to related states. -/
theorem mirrors_modify {f : σ → σ} (h : ∀ s t, R s t → R (f s) (f t)) :
    Mirrors R (modify f : EStateM ε σ PUnit) := fun s t hst ↦ ⟨rfl, h s t hst⟩

/-- Sequencing mirrors when each part does. -/
theorem mirrors_bind {x : EStateM ε σ α} {f : α → EStateM ε σ β} (hx : Mirrors R x)
    (hf : ∀ a, Mirrors R (f a)) : Mirrors R (x >>= f) := by
  intro s t hst
  have hr := hx s t hst
  cases hs : x.run s with
  | ok a s' =>
    obtain ⟨t', ht, hst'⟩ := hx.ok hst hs
    rw [run_bind_of_ok hs, run_bind_of_ok ht]
    exact hf a s' t' hst'
  | error e s' =>
    cases ht : x.run t with
    | ok b t' =>
      rw [hs, ht] at hr
      exact hr.elim
    | error f t' =>
      rw [hs, ht] at hr
      rw [run_bind_of_error hs, run_bind_of_error ht]
      exact hr

/-- A branch mirrors what its sides mirror. -/
theorem mirrors_ite {p : Prop} [Decidable p] {x y : EStateM ε σ α} (hx : Mirrors R x)
    (hy : Mirrors R y) : Mirrors R (if p then x else y) := by
  split
  · exact hx
  · exact hy

/-- A loop mirrors what its rounds mirror. -/
theorem mirrors_forM {l : List α} {f : α → EStateM ε σ PUnit}
    (hf : ∀ a ∈ l, Mirrors R (f a)) : Mirrors R (forM l f) := by
  induction l with
  | nil => exact mirrors_pure _
  | cons a l ih =>
    simp only [List.forM_cons]
    exact mirrors_bind (hf a List.mem_cons_self)
      fun _ ↦ ih fun b hb ↦ hf b (List.mem_cons_of_mem a hb)

/-- A loop with an accumulator mirrors what its rounds mirror. -/
theorem mirrors_foldlM {l : List α} {f : β → α → EStateM ε σ β}
    (hf : ∀ b, ∀ a ∈ l, Mirrors R (f b a)) (b : β) : Mirrors R (l.foldlM f b) := by
  induction l generalizing b with
  | nil => exact mirrors_pure _
  | cons a l ih =>
    simp only [List.foldlM_cons]
    exact mirrors_bind (hf b a List.mem_cons_self)
      fun b' ↦ ih (fun b'' c hc ↦ hf b'' c (List.mem_cons_of_mem a hc)) b'

/-- Zooming in on a component that related states share and may replace together. -/
theorem mirrors_zoom {l : Lens σ τ} {x : EStateM ε τ α} (hget : ∀ s t, R s t → l.get s = l.get t)
    (hset : ∀ u s t, R s t → R (l.set u s) (l.set u t)) : Mirrors R (zoom l x) := by
  intro s t hst
  rw [run_zoom, run_zoom, hget s t hst]
  cases x.run (l.get t) with
  | ok a u => exact ⟨rfl, hset u s t hst⟩
  | error e u => exact ⟨rfl, hset u s t hst⟩

/-! ### Reading before acting -/

/-- The program neither reads nor writes the component. -/
def Blind (l : Lens σ τ) (x : EStateM ε σ α) : Prop :=
  ∀ t, Mirrors (fun s s' ↦ s' = l.set t s) x

/-- A program that is blind for a component keeps it. -/
theorem Blind.keeps {l : Lens σ τ} {x : EStateM ε σ α} (h : Blind l x) : Keeps l.get x := by
  intro s
  have hs : final x s = l.set (l.get s) (final x s) := (h (l.get s)).final (l.set_get s).symm
  rw [hs, l.get_set]

/-- A program that is blind for a component runs the same with another one in its place. -/
theorem Blind.run_set {l : Lens σ τ} {x : EStateM ε σ α} (h : Blind l x) {s s' : σ} {a : α}
    (t : τ) (hx : x.run s = .ok a s') : x.run (l.set t s) = .ok a (l.set t s') := by
  obtain ⟨_, ht, rfl⟩ := (h t).ok rfl hx
  exact ht

/-- The returning runs of `x` are those that first run the reader `r` on the component and
then `k` on what it returned. -/
def Splits (l : Lens σ τ) (x : EStateM ε σ β) (r : EStateM ε τ α) (k : α → EStateM ε σ β) :
    Prop :=
  ∀ s b s', x.run s = .ok b s' ↔
    ∃ a t, r.run (l.get s) = .ok a t ∧ (k a).run (l.set t s) = .ok b s'

/-- A program that reads nothing itself. -/
theorem splits_pure (l : Lens σ τ) (k : α → EStateM ε σ β) (a : α) :
    Splits l (k a) (pure a) k := by
  intro s b s'
  constructor
  · intro h
    exact ⟨a, l.get s, rfl, by rwa [l.set_get]⟩
  · rintro ⟨_, _, hr, h⟩
    cases hr
    rwa [l.set_get] at h

/-- A program that first reads and then goes on with what it read. -/
theorem splits_zoom_bind {l : Lens σ τ} {r : EStateM ε τ ν} {f : ν → EStateM ε σ β}
    {r' : ν → EStateM ε τ α} {k : α → EStateM ε σ β} (h : ∀ a, Splits l (f a) (r' a) k) :
    Splits l (zoom l r >>= f) (r >>= r') k := by
  intro s b s''
  constructor
  · intro hx
    obtain ⟨a, s', hz, hf⟩ := run_bind_ok hx
    rw [run_zoom] at hz
    cases hr : r.run (l.get s) with
    | ok a' t =>
      rw [hr] at hz
      cases hz
      obtain ⟨c, t', hr', hk⟩ := (h a _ b s'').mp hf
      rw [l.get_set] at hr'
      rw [l.set_set] at hk
      exact ⟨c, t', by rw [run_bind_of_ok hr]; exact hr', hk⟩
    | error e t =>
      rw [hr] at hz
      cases hz
  · rintro ⟨c, t', hr, hk⟩
    obtain ⟨a, t, hr, hr'⟩ := run_bind_ok hr
    rw [run_bind_of_ok (run_zoom_of_ok hr)]
    refine (h a _ b s'').mpr ⟨c, t', ?_, ?_⟩
    · rw [l.get_set]
      exact hr'
    · rw [l.set_set]
      exact hk

/-- A program that first reads and then acts. -/
theorem splits_zoom (l : Lens σ τ) (r : EStateM ε τ α) (k : α → EStateM ε σ β) :
    Splits l (zoom l r >>= k) r k := by
  have h : Splits l (zoom l r >>= k) (r >>= pure) k := splits_zoom_bind fun a ↦ splits_pure l k a
  rwa [bind_pure] at h

/-- Two programs in sequence read together before they act, when what the first one does
is blind for the component. -/
theorem splits_bind {l : Lens σ τ} {x : EStateM ε σ PUnit} {y : EStateM ε σ β}
    {r : EStateM ε τ α} {r' : EStateM ε τ ν} {k : α → EStateM ε σ PUnit}
    {k' : ν → EStateM ε σ β} (hx : Splits l x r k) (hy : Splits l y r' k')
    (hk : ∀ a, Blind l (k a)) :
    Splits l (x >>= fun _ ↦ y) (r >>= fun a ↦ r' >>= fun c ↦ pure (a, c))
      (fun p ↦ k p.1 >>= fun _ ↦ k' p.2) := by
  intro s b s'
  constructor
  · intro h
    obtain ⟨_, s1, hx1, hy1⟩ := run_bind_ok h
    obtain ⟨a, t, hr, hka⟩ := (hx s _ s1).mp hx1
    obtain ⟨c, t', hr', hkc⟩ := (hy s1 b s').mp hy1
    have hkeep := (hk a).keeps (l.set t s)
    rw [final_of_ok hka, l.get_set] at hkeep
    rw [hkeep] at hr'
    refine ⟨(a, c), t', ?_, ?_⟩
    · rw [run_bind_of_ok hr, run_bind_of_ok hr']
      rfl
    · have hset := (hk a).run_set t' hka
      rw [l.set_set] at hset
      rw [run_bind_of_ok hset]
      exact hkc
  · rintro ⟨⟨a, c⟩, t', hr, h⟩
    obtain ⟨a', t, hr1, hr2⟩ := run_bind_ok hr
    obtain ⟨c', t2, hr3, hp⟩ := run_bind_ok hr2
    cases hp
    obtain ⟨_, s2, hka, hkc⟩ := run_bind_ok h
    have hset := (hk a).run_set t hka
    rw [l.set_set] at hset
    have hback := (hk a).keeps (l.set t' s)
    rw [final_of_ok hka, l.get_set] at hback
    rw [run_bind_of_ok ((hx s _ _).mpr ⟨a, t, hr1, hset⟩)]
    refine (hy _ b s').mpr ⟨c, t', ?_, ?_⟩
    · rw [l.get_set]
      exact hr3
    · rw [l.set_set, ← hback, l.set_get]
      exact hkc

/-- Repackaging what was read. -/
theorem splits_congr {l : Lens σ τ} {x : EStateM ε σ β} {r : EStateM ε τ α} {g : α → ν}
    {k : ν → EStateM ε σ β} (h : Splits l x r fun a ↦ k (g a)) :
    Splits l x (r >>= fun a ↦ pure (g a)) k := by
  intro s b s'
  rw [h s b s']
  constructor
  · rintro ⟨a, t, hr, hk⟩
    exact ⟨g a, t, by rw [run_bind_of_ok hr]; rfl, hk⟩
  · rintro ⟨_, t, hr, hk⟩
    obtain ⟨a, _, hr, hp⟩ := run_bind_ok hr
    cases hp
    exact ⟨a, t, hr, hk⟩

end Q2Admin.Exec
