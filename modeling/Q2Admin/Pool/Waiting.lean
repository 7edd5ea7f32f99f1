import Q2Admin.Pool.Jobs

/-!
# Waiting for the jobs of a pool

Library `Q2Admin.Pool`. Source `threadpool.c:196–203`. `thpool_wait` reads the length of the queue
and then the number of working threads, and a worker takes a job only after it has been counted.
Whatever the others do meanwhile, when a call returns, all jobs have been run that had been added
when it was made. Jobs may be added while it waits, and by then these may have been run or not.
-/

namespace Q2Admin

variable {n m : Nat} {W : Type}

/-- The event is a call of `thpool_wait` or its return. -/
def PoolEvent.isCall : PoolEvent n m W → Bool
  | .waiting _ | .waited _ => true
  | _ => false

/-- The jobs that had been added when the client called `thpool_wait` last. -/
def dueJobs (k : Fin m) : List (PoolEvent n m W) → List Nat
  | [] => []
  | .waiting k' :: t => if k' = k then addedJobs t else dueJobs k t
  | _ :: t => dueJobs k t

section Trace

variable {e : PoolEvent n m W} {t : List (PoolEvent n m W)} {k : Fin m} {p : Nat}

private theorem dueJobs_cons (h : e.isCall = false) : dueJobs k (e :: t) = dueJobs k t := by
  cases e <;> first | rfl | cases h

private theorem addedJobs_subset_cons (h : p ∈ addedJobs t) : p ∈ addedJobs (e :: t) := by
  obtain ⟨w, hw⟩ := mem_addedJobs.mp h
  exact mem_addedJobs.mpr ⟨w, List.mem_cons_of_mem _ hw⟩

private theorem takenJobs_subset_cons (h : p ∈ takenJobs t) : p ∈ takenJobs (e :: t) := by
  rcases mem_takenJobs.mp h with ⟨i, hi⟩ | hd
  · exact mem_takenJobs.mpr (.inl ⟨i, List.mem_cons_of_mem _ hi⟩)
  · exact mem_takenJobs.mpr (.inr (List.mem_cons_of_mem _ hd))

private theorem finishedJobs_subset_cons (h : p ∈ finishedJobs t) : p ∈ finishedJobs (e :: t) := by
  obtain ⟨i, w, hw⟩ := mem_finishedJobs.mp h
  exact mem_finishedJobs.mpr ⟨i, w, List.mem_cons_of_mem _ hw⟩

private theorem dueJobs_subset (h : p ∈ dueJobs k t) : p ∈ addedJobs t := by
  induction t with
  | nil => cases h
  | cons e t ih =>
    apply addedJobs_subset_cons
    cases e with
    | waiting k' =>
      simp only [dueJobs] at h
      split at h
      · exact h
      · exact ih h
    | added | pulled | finished | dropped | waited => exact ih h

end Trace

namespace Pool

variable {s s' : Pool n m W} {i : Fin n} {k : Fin m}

/-- A post is not noted. -/
theorem Posted.trace (h : Posted s s') : s'.trace = s.trace := by cases h <;> rfl

/-- A post moves no client. -/
theorem Posted.client (h : Posted s s') : s'.client = s.client := by cases h <;> rfl

private theorem dropped_of_move {p : Nat} (hm : PoolMove s s')
    (h : .dropped p ∈ s.trace → s.stage.isOver = true) (hp : .dropped p ∈ s'.trace) :
    s'.stage.isOver = true := by
  cases hm with
  | worker i hm =>
    rw [hm.stage]
    apply h
    cases hm with
    | pullLast | pullMore | finish =>
      rcases List.mem_cons.mp hp with heq | hp
      · cases heq
      · exact hp
    | post place posted =>
      rw [Posted.trace posted] at hp
      exact hp
    | endLast place free last signalled => cases signalled <;> exact hp
    | _ => exact hp
  | client k hm =>
    rw [hm.stage]
    apply h
    cases hm with
    | push | wait | leave =>
      rcases List.mem_cons.mp hp with heq | hp
      · cases heq
      · exact hp
    | post place posted =>
      rw [Posted.trace posted] at hp
      exact hp
    | _ => exact hp
  | master hm =>
    have hold (stage : s.stage.isOver = false) : .dropped p ∉ s.trace := fun hp ↦ by
      rw [h hp] at stage
      cases stage
    cases hm with
    | drained | destroy => rfl
    | dropNone stage | dropLast stage => exact congrArg Stage.isOver stage
    | dropMore stage free more pull rest posted => rw [posted.stage, stage]; rfl
    | create stage | miss stage | spin stage | ready stage | stop stage | rouse stage =>
      exact absurd hp (hold (by rw [stage]; rfl))

/-- `jobqueue_clear` frees jobs behind the loops of `thpool_destroy` only. -/
theorem dropped_over {G : PoolAct n m W → Pool n m W → Prop} {acts : List (PoolAct n m W)}
    (hrun : Run poolStep G acts (Pool.initial n m W) s) {p : Nat} (hp : .dropped p ∈ s.trace) :
    s.stage.isOver = true :=
  hrun.poolInvariant (I := fun s ↦ .dropped p ∈ s.trace → s.stage.isOver = true)
    (fun _ _ h hm ↦ dropped_of_move hm h) nofun hp

/-- With no worker counted as working, no job is in hand. -/
theorem finished_of_idle (hs : s.Sound) (hkept : ∀ p, .dropped p ∉ s.trace)
    (hidle : s.working = 0) {p : Nat} (hp : p ∈ takenJobs s.trace) :
    p ∈ finishedJobs s.trace := by
  obtain ⟨l, hl⟩ := hs.tracked
  have hrest := census_eq_zero.mp (hs.locked.working.symm.trans hidle)
  rcases mem_takenJobs.mp hp with ⟨i, hi⟩ | hd
  · rcases hl.pulled i p hi with hhand | ⟨w, hw⟩
    · have hworking := hrest i
      cases hplace : s.worker i <;> rw [hplace] at hhand hworking <;> (try cases hhand) <;>
        cases hworking
    · exact mem_finishedJobs.mpr ⟨i, w, hw⟩
  · exact absurd hd (hkept p)

/-- What a client has seen holds of the jobs that are due to it, and what has been seen before is
in the trace. -/
structure Heeded (s : Pool n m W) : Prop where
  seen : ∀ k, s.client k = .seeingWorking → ∀ p ∈ dueJobs k s.trace, p ∈ takenJobs s.trace
  ran : ∀ k, s.client k = .satisfied → ∀ p ∈ dueJobs k s.trace, p ∈ finishedJobs s.trace
  served : ∀ k before, .waited k :: before <:+ s.trace →
    ∀ p ∈ dueJobs k before, p ∈ finishedJobs before

namespace Heeded

-- What happens to jobs does not undo what a client has seen.
private theorem follows (h : s.Heeded)
    (hclient : ∀ k, s'.client k = .seeingWorking ∨ s'.client k = .satisfied →
      s'.client k = s.client k)
    (htrace : s'.trace = s.trace ∨ ∃ e, s'.trace = e :: s.trace ∧ e.isCall = false) :
    s'.Heeded := by
  rcases htrace with htrace | ⟨e, htrace, he⟩
  · refine ⟨fun k hk ↦ ?_, fun k hk ↦ ?_, ?_⟩ <;> rw [htrace]
    · exact h.seen k ((hclient k (.inl hk)).symm.trans hk)
    · exact h.ran k ((hclient k (.inr hk)).symm.trans hk)
    · exact h.served
  · refine ⟨fun k hk p hp ↦ ?_, fun k hk p hp ↦ ?_, fun k before hbefore ↦ ?_⟩
    · rw [htrace, dueJobs_cons he] at hp
      rw [htrace]
      exact takenJobs_subset_cons (h.seen k ((hclient k (.inl hk)).symm.trans hk) p hp)
    · rw [htrace, dueJobs_cons he] at hp
      rw [htrace]
      exact finishedJobs_subset_cons (h.ran k ((hclient k (.inr hk)).symm.trans hk) p hp)
    · rw [htrace, List.suffix_cons_iff] at hbefore
      rcases hbefore with heq | hbefore
      · cases heq
        cases he
      · exact h.served k before hbefore

private theorem client_sees (h : s.Heeded) {pc : ClientPc W}
    (hclient : s'.client = Function.update s.client k pc)
    (htrace : s'.trace = s.trace ∨ ∃ e, s'.trace = e :: s.trace ∧
      ∀ k', k' ≠ k → dueJobs k' (e :: s.trace) = dueJobs k' s.trace)
    (hseen : pc = .seeingWorking → ∀ p ∈ dueJobs k s'.trace, p ∈ takenJobs s'.trace)
    (hran : pc = .satisfied → ∀ p ∈ dueJobs k s'.trace, p ∈ finishedJobs s'.trace)
    (hserved : ∀ k' before, s'.trace = .waited k' :: before →
      ∀ p ∈ dueJobs k' before, p ∈ finishedJobs before) : s'.Heeded := by
  have hkeep {k' : Fin m} (hk : k' ≠ k) : s'.client k' = s.client k' := by
    rw [hclient, Function.update_of_ne hk]
  have hself : s'.client k = pc := by rw [hclient, Function.update_self]
  have hdue {k' : Fin m} (hk : k' ≠ k) : dueJobs k' s'.trace = dueJobs k' s.trace := by
    rcases htrace with htrace | ⟨e, htrace, he⟩
    · rw [htrace]
    · rw [htrace, he k' hk]
  refine ⟨fun k' hk' ↦ ?_, fun k' hk' ↦ ?_, fun k' before hbefore ↦ ?_⟩
  · by_cases hk : k' = k
    · rw [hk]
      exact hseen (hself.symm.trans (hk ▸ hk'))
    · intro p hp
      have htaken := h.seen k' ((hkeep hk).symm.trans hk') p (hdue hk ▸ hp)
      rcases htrace with htrace | ⟨e, htrace, _⟩
      · exact htrace ▸ htaken
      · exact htrace ▸ takenJobs_subset_cons htaken
  · by_cases hk : k' = k
    · rw [hk]
      exact hran (hself.symm.trans (hk ▸ hk'))
    · intro p hp
      have hfinished := h.ran k' ((hkeep hk).symm.trans hk') p (hdue hk ▸ hp)
      rcases htrace with htrace | ⟨e, htrace, _⟩
      · exact htrace ▸ hfinished
      · exact htrace ▸ finishedJobs_subset_cons hfinished
  · rcases htrace with htrace | ⟨e, htrace, _⟩
    · exact h.served k' before (htrace ▸ hbefore)
    · rw [htrace, List.suffix_cons_iff] at hbefore
      rcases hbefore with heq | hbefore
      · exact hserved k' before (htrace.trans heq.symm)
      · exact h.served k' before hbefore

private theorem client_follows (h : s.Heeded) {pc : ClientPc W}
    (hclient : s'.client = Function.update s.client k pc)
    (hpc : pc ≠ .seeingWorking ∧ pc ≠ .satisfied)
    (htrace : s'.trace = s.trace ∨ ∃ e, s'.trace = e :: s.trace ∧ e.isCall = false) :
    s'.Heeded := by
  refine h.follows (fun k' hk' ↦ ?_) htrace
  rw [hclient] at hk' ⊢
  by_cases hk : k' = k
  · rw [hk, Function.update_self] at hk'
    rcases hk' with heq | heq
    · exact absurd heq hpc.1
    · exact absurd heq hpc.2
  · exact Function.update_of_ne hk _ _

private theorem posted (h : s.Heeded) (hp : Posted s s') : s'.Heeded :=
  h.follows (fun _ _ ↦ congrFun (Posted.client hp) _) (.inl (Posted.trace hp))

private theorem worker (h : s.Heeded) (hm : WorkerMove s i s') : s'.Heeded := by
  cases hm with
  | pullLast | pullMore | finish => exact h.follows (fun _ _ ↦ rfl) (.inr ⟨_, rfl, rfl⟩)
  | post place hposted =>
    refine posted ?_ hposted
    exact h.follows (fun _ _ ↦ rfl) (.inl rfl)
  | endLast place free last signalled =>
    cases signalled with
    | woken k blocked => exact h.client_follows rfl ⟨nofun, nofun⟩ (.inl rfl)
    | unheard => exact h.follows (fun _ _ ↦ rfl) (.inl rfl)
  | _ => exact h.follows (fun _ _ ↦ rfl) (.inl rfl)

private theorem client (h : s.Heeded) (hs : s.Sound) (hkept : ∀ p, .dropped p ∉ s.trace)
    (hm : ClientMove s k s') : s'.Heeded := by
  cases hm with
  | add | lock | seeJobs | seeWorking | block | stir =>
    exact h.client_follows rfl ⟨nofun, nofun⟩ (.inl rfl)
  | push => exact h.client_follows rfl ⟨nofun, nofun⟩ (.inr ⟨_, rfl, rfl⟩)
  | post place hposted =>
    refine posted ?_ hposted
    exact h.client_follows rfl ⟨nofun, nofun⟩ (.inl rfl)
  | wait stage place =>
    refine h.client_sees rfl (.inr ⟨_, rfl, fun k' hk ↦ if_neg hk.symm⟩) nofun nofun ?_
    intro k' before heq
    cases (List.cons.inj heq).1
  | seeEmpty place empty =>
    obtain ⟨l, hl⟩ := hs.tracked
    obtain rfl := List.length_eq_zero_iff.mp (hl.holds.len.symm.trans empty)
    have horder : addedJobs s.trace = takenJobs s.trace := hl.order.trans (List.append_nil _)
    refine h.client_sees rfl (.inl rfl) (fun _ p hp ↦ ?_) nofun fun k' before heq ↦ ?_
    · change p ∈ takenJobs s.trace
      rw [← horder]
      exact dueJobs_subset hp
    · exact h.served k' before (heq ▸ List.suffix_refl _)
  | seeIdle place idle =>
    refine h.client_sees rfl (.inl rfl) nofun (fun _ p hp ↦ ?_) fun k' before heq ↦ ?_
    · exact finished_of_idle hs hkept idle (h.seen k place p hp)
    · exact h.served k' before (heq ▸ List.suffix_refl _)
  | leave place =>
    refine h.client_sees rfl (.inr ⟨_, rfl, fun _ _ ↦ rfl⟩) nofun nofun fun k' before heq ↦ ?_
    obtain ⟨hcall, rfl⟩ := List.cons.inj heq
    cases hcall
    exact h.ran k place

private theorem master (h : s.Heeded) (hm : MasterMove s s') : s'.Heeded := by
  cases hm with
  | dropLast => exact h.follows (fun _ _ ↦ rfl) (.inr ⟨_, rfl, rfl⟩)
  | dropMore stage free more pull rest hposted =>
    refine posted ?_ hposted
    exact h.follows (fun _ _ ↦ rfl) (.inr ⟨_, rfl, rfl⟩)
  | _ => exact h.follows (fun _ _ ↦ rfl) (.inl rfl)

end Heeded

/-- What a client has seen holds in every state that a pool gets to. -/
theorem heeded_of_run {G : PoolAct n m W → Pool n m W → Prop} {acts : List (PoolAct n m W)}
    (hrun : Run poolStep G acts (Pool.initial n m W) s) : s.Heeded := by
  have hinv := hrun.poolInvariant
    (I := fun s ↦ s.Sound ∧ (∀ p, .dropped p ∈ s.trace → s.stage.isOver = true) ∧ s.Heeded)
    (fun s s' h hm ↦ ⟨h.1.move hm, fun p ↦ dropped_of_move hm (h.2.1 p), ?_⟩)
    ⟨.initial n m W, nofun, nofun, nofun, fun k before hbefore ↦ ?_⟩
  · exact hinv.2.2
  · obtain ⟨hs, hdropped, h⟩ := h
    cases hm with
    | worker i hm => exact h.worker hm
    | client k hm =>
      refine h.client hs (fun p hp ↦ ?_) hm
      have hover := hdropped p hp
      rw [hs.staged.of_clientMove hm] at hover
      cases hover
    | master hm => exact h.master hm
  · cases List.suffix_nil.mp hbefore

end Pool

open Pool

/-- In every order of the steps: when a call of `thpool_wait` returns, all jobs that had been added
before the call have been run. -/
theorem thpool_wait_complete {acts : List (PoolAct n m W)} {s : Pool n m W} {k : Fin m}
    {before : List (PoolEvent n m W)}
    (hrun : Run poolStep Unguarded acts (Pool.initial n m W) s)
    (hreturn : .waited k :: before <:+ s.trace) :
    ∀ p ∈ dueJobs k before, p ∈ finishedJobs before :=
  (heeded_of_run hrun).served k before hreturn

-- What is due to the call of `thpool_wait` whose return is the last event.
private def dueOfReturn (k : Fin m) : List (PoolEvent n m W) → Option (List Nat)
  | .waited k' :: before => if k' = k then some (dueJobs k before) else none
  | _ => none

/-- A client adds a job, finds it in the queue, and is woken by the worker that has run it. -/
theorem thpool_wait_complete_sample :
    ∃ (s : Pool 1 1 Nat) (before : List (PoolEvent 1 1 Nat)), .waited 0 :: before <:+ s.trace ∧
      dueJobs 0 before = [0] ∧ 0 ∈ finishedJobs before := by
  have h : (follow poolStep Unguarded (opening 0 ++ errand 0 7 ++ [.wait 0] ++
      List.replicate 3 (.client 0 none) ++ labour 0 6 ++ [.worker 0 none (some 0)] ++
      List.replicate 4 (.client 0 none)) (Pool.initial 1 1 Nat)).any (fun s ↦
        dueOfReturn 0 s.trace == some [0]) = true := by decide
  obtain ⟨s, hrun, hs⟩ := Run.exists_of_follow h
  have hreturned := beq_iff_eq.mp hs
  unfold dueOfReturn at hreturned
  split at hreturned
  · next k before htrace =>
    obtain rfl : k = 0 := Subsingleton.elim k 0
    have hdue : dueJobs 0 before = [0] := by simpa using hreturned
    have hreturn : .waited 0 :: before <:+ s.trace := htrace ▸ List.suffix_refl _
    have hmem : 0 ∈ dueJobs 0 before := by
      rw [hdue]
      exact List.mem_singleton.mpr rfl
    have hrun := thpool_wait_complete hrun hreturn 0 hmem
    exact ⟨s, before, hreturn, hdue, hrun⟩
  · cases hreturned

end Q2Admin
