import Q2Admin.Pool.Jobs

/-!
# The end of the pool

Library `Q2Admin.Pool`. Source `threadpool.c:206–241`. When `thpool_destroy` has freed the memory
of a pool, every job has been run or freed and no memory of a job is left. All use of memory before
is of memory that is allocated. Behind the end, one worker may be left: `num_threads_alive` drops
to zero inside of a section of `thcount_lock`, and the unlock that ends the section is of a mutex
that is in the memory of the pool.
-/

namespace Q2Admin

variable {n m : Nat} {W : Type}

namespace Pool

variable {s s' : Pool n m W} {i : Fin n} {k : Fin m}

/-- When no worker is alive, each of them is behind its loop. -/
theorem Wf.worker_over (h : s.Wf) (hover : s.stage.isOver = true) (i : Fin n) :
    s.worker i = .leaving ∨ s.worker i = .gone := by
  have hmade : s.stage.isMade = true := by
    cases hstage : s.stage <;> rw [hstage] at hover <;> first | rfl | cases hover
  have hstarted := h.staged.made hmade i
  have hdead := census_eq_zero.mp (h.locked.alive.symm.trans (h.staged.ended hover)) i
  cases hplace : s.worker i <;> rw [hplace] at hstarted hdead
  case leaving => exact .inl rfl
  case gone => exact .inr rfl
  all_goals (try cases hstarted) <;> cases hdead

/-- One worker at most is about to release `thcount_lock` for the last time. -/
theorem Wf.leaving_unique (h : s.Wf) {j : Fin n} (hi : s.worker i = .leaving)
    (hj : s.worker j = .leaving) : i = j := by
  have hin {i : Fin n} (hi : s.worker i = .leaving) : s.inCount (.inl i) = true :=
    congrArg WorkerPc.holdsCount hi
  exact Sum.inl_injective (h.locked.count.exclusive (hin hi) (hin hj))

private theorem bsemPost_ne_fault (s : Pool n m W) (wakes : Option (Fin n)) :
    s.bsemPost wakes ≠ .fault := by
  cases wakes with
  | none =>
    simp only [bsemPost]
    split <;> simp
  | some i =>
    simp only [bsemPost]
    split <;> simp

private theorem signalIdle_ne_fault (s : Pool n m W) (wakes : Option (Fin m)) :
    s.signalIdle wakes ≠ .fault := by
  cases wakes with
  | none =>
    simp only [signalIdle]
    split <;> simp
  | some k =>
    simp only [signalIdle]
    split <;> simp

/-- The queue and the jobs that `jobqueue_pull` follows are allocated. -/
theorem Sound.pull_ne_none (h : s.Sound) : jobqueuePull s.queue s.jobs ≠ none := by
  obtain ⟨l, hl⟩ := h.tracked
  obtain ⟨q, hq, _⟩ := hl.holds.pull
  rw [hq]
  nofun

/-- So are those that `jobqueue_push` follows. -/
theorem Sound.exists_push (h : s.Sound) {p : Nat} {work : W}
    (place : s.client k = .adding p work) :
    ∃ queue jobs, jobqueuePush s.queue s.jobs p = some (queue, jobs) ∧
      queue.len = s.queue.len + 1 := by
  obtain ⟨l, hl⟩ := h.tracked
  obtain ⟨_, hnew, hwork, _⟩ := hl.adding k p work (by rw [place]; rfl)
  obtain ⟨job, hjob, _⟩ := Option.map_eq_some_iff.mp hwork
  have hnodup := (List.nodup_append.mp hl.taken_nodup).2.1
  obtain ⟨queue, jobs, hpush, hholds, _⟩ :=
    hl.holds.push hnodup (fun hp ↦ hnew (hl.mem_added_of_mem hp)) hjob
  refine ⟨queue, jobs, hpush, ?_⟩
  rw [hholds.len, hl.holds.len, List.length_append]
  rfl

private theorem threadDo_ne_fault (h : s.Sound) {wakes : Option (Fin n)}
    {signals : Option (Fin m)} : s.threadDo i wakes signals ≠ .fault := by
  obtain ⟨l, hl⟩ := h.tracked
  cases hplace : s.worker i <;> simp only [threadDo, hplace]
  case posting p => exact bsemPost_ne_fault _ _
  case pulling =>
    split
    · split
      · next hnone => exact absurd hnone h.pull_ne_none
      · simp
      · split <;> simp
    · simp
  case running p =>
    split
    · next hnone =>
      have hhand : (s.worker i).job = some p := by rw [hplace]; rfl
      exact absurd hnone (hl.hand i p hhand).2.2
    · simp
  case ending =>
    split
    · split
      · exact signalIdle_ne_fault _ _
      · simp
    · simp
  all_goals first | (split <;> simp) | simp

private theorem clientDo_ne_fault (h : s.Sound) {wakes : Option (Fin n)} :
    s.clientDo k wakes ≠ .fault := by
  cases hplace : s.client k <;> simp only [clientDo, hplace]
  case pushed => exact bsemPost_ne_fault _ _
  case adding p work =>
    split
    · obtain ⟨q, jobs, hpush, _⟩ := h.exists_push hplace
      rw [hpush]
      simp
    · simp
  all_goals first | (split <;> simp) | simp

private theorem masterDo_ne_fault (h : s.Sound) {created : Bool} {wakes : Option (Fin n)} :
    s.masterDo created wakes ≠ .fault := by
  obtain ⟨l, hl⟩ := h.tracked
  cases hstage : s.stage <;> simp only [masterDo, hstage]
  case clearing =>
    split
    · simp
    · split
      · split
        · next hnone => exact absurd hnone h.pull_ne_none
        · simp
        · next p queue hpull =>
          have hmem : p ∈ l := List.mem_of_mem_head? ((hl.pulls hpull).1.symm)
          split
          · next hcell => exact absurd (Option.isNone_iff_eq_none.mp hcell) (hl.cell_of_mem hmem)
          · split
            · simp
            · exact bsemPost_ne_fault _ _
      · simp
  all_goals first | (split <;> simp) | simp

/-- Behind the loops of `thpool_destroy`, a worker only releases `thcount_lock`. -/
theorem Wf.workerMove_over (h : s.Wf) (hover : s.stage.isOver = true) (hm : WorkerMove s i s') :
    s' = { s with countLock := none }.workerTo i .gone := by
  have hplace := h.worker_over hover i
  cases hm with
  | leave place => rfl
  | start place | enter place | quit place | take place | sleep place | proceed place
  | turn place | count place | pullNone place | pullLast place | pullMore place | post place
  | finish place | endMore place | endLast place | exit place | stir place =>
    rw [place] at hplace
    rcases hplace with heq | heq <;> cases heq

private theorem emptied_of_move (h : s.Sound) (hempty : s.stage = .destroyed → s.queue.len = 0)
    (hm : PoolMove s s') (hend : s'.stage = .destroyed) : s'.queue.len = 0 := by
  cases hm with
  | worker i hm =>
    have hstage := hm.stage.symm.trans hend
    rw [h.toWf.workerMove_over (by rw [hstage]; rfl) hm]
    exact hempty hstage
  | client k hm =>
    have hstage := hm.stage.symm.trans hend
    rw [h.staged.of_clientMove hm] at hstage
    cases hstage
  | master hm =>
    cases hm with
    | destroy stage empty => rfl
    | rouse stage | dropNone stage | dropLast stage =>
      have hstage : s.stage = .destroyed := hend
      rw [stage] at hstage
      cases hstage
    | dropMore stage free more pull rest posted =>
      have hstage : s.stage = .destroyed := posted.stage.symm.trans hend
      rw [stage] at hstage
      cases hstage
    | create | miss | spin | ready | stop | drained => cases hend

end Pool

open Pool

/-- In every order of the steps, memory that is not allocated is used by one step only: the last
`pthread_mutex_unlock` of a worker, if `thpool_destroy` has got to its end before it. There is
at most one such worker. -/
theorem fault_iff_late_unlock {acts : List (PoolAct n m W)} {s : Pool n m W}
    (hrun : Run poolStep Unguarded acts (Pool.initial n m W) s) :
    (∀ a, s.act a = .fault ↔ s.stage = .destroyed ∧
      ∃ i wakes signals, a = .worker i wakes signals ∧ s.worker i = .leaving) ∧
    ∀ i j, s.worker i = .leaving → s.worker j = .leaving → i = j := by
  have h := sound_of_run hrun
  refine ⟨fun a ↦ ⟨fun hfault ↦ ?_, ?_⟩, fun i j ↦ h.toWf.leaving_unique⟩
  · cases a with
    | worker i wakes signals =>
      simp only [Pool.act] at hfault
      split at hfault
      · next hlate =>
        obtain ⟨hstage, hpresent⟩ := hlate
        refine ⟨hstage, i, wakes, signals, rfl, ?_⟩
        rcases h.toWf.worker_over (by rw [hstage]; rfl) i with hleaving | hgone
        · exact hleaving
        · rw [hgone] at hpresent
          cases hpresent
      · exact absurd hfault (threadDo_ne_fault h)
    | client k wakes => exact absurd hfault (clientDo_ne_fault h)
    | master created wakes => exact absurd hfault (masterDo_ne_fault h)
    | addWork k work memory =>
      simp only [Pool.act, thpoolAddWork] at hfault
      split at hfault
      · split at hfault <;> cases hfault
      · cases hfault
    | wait k =>
      simp only [Pool.act, thpoolWait] at hfault
      split at hfault <;> cases hfault
    | stir t =>
      cases t <;> simp only [Pool.act, stir] at hfault <;> split at hfault <;> cases hfault
  · rintro ⟨hstage, i, wakes, signals, rfl, hleaving⟩
    exact if_pos ⟨hstage, by rw [hleaving]; rfl⟩

-- A worker leaves its loop, and `thpool_destroy` overtakes it at the end.
private def overtaking (i : Fin n) : List (PoolAct n m W) :=
  opening i ++ [.master true none] ++ labour i 2 ++ List.replicate 2 (.master true none)

/-- The worker unlocks behind `free`, and the thread that destroys the pool is done. -/
theorem fault_iff_late_unlock_sample :
    ∃ s : Pool 1 1 Nat,
      s.act (.worker 0 none none) = .fault ∧ s.act (.master true none) ≠ .fault := by
  have h : (follow poolStep Unguarded (overtaking 0) (Pool.initial 1 1 Nat)).any (fun s ↦
      decide (s.stage = .destroyed) && decide (s.worker 0 = .leaving)) = true := by decide
  obtain ⟨s, hrun, hs⟩ := Run.exists_of_follow h
  obtain ⟨hstage, hleaving⟩ := Bool.and_eq_true_iff.mp hs
  obtain ⟨hfault, _⟩ := fault_iff_late_unlock hrun
  refine ⟨s, (hfault _).mpr ⟨of_decide_eq_true hstage, 0, none, none, rfl,
    of_decide_eq_true hleaving⟩, fun hmaster ↦ ?_⟩
  obtain ⟨_, i, wakes, signals, hact, _⟩ := (hfault _).mp hmaster
  cases hact

/-- When `thpool_destroy` has freed the pool, all jobs that have been added have left the queue in
their order, each of them has either been run or been freed without a run, the memory of no job is
left, and each worker has ended or is at its last unlock. -/
theorem thpool_destroy_complete {acts : List (PoolAct n m W)} {s : Pool n m W}
    (hrun : Run poolStep Unguarded acts (Pool.initial n m W) s) (hend : s.stage = .destroyed) :
    addedJobs s.trace = takenJobs s.trace ∧
      (∀ p ∈ addedJobs s.trace, p ∈ finishedJobs s.trace ↔ .dropped p ∉ s.trace) ∧
      (∀ p, s.jobs p = none) ∧ ∀ i, s.worker i = .leaving ∨ s.worker i = .gone := by
  have hsound := sound_of_run hrun
  have hempty : s.queue.len = 0 := by
    have hinv := hrun.poolInvariant
      (I := fun s ↦ s.Sound ∧ (s.stage = .destroyed → s.queue.len = 0))
      (fun s s' h hm ↦ ⟨h.1.move hm, emptied_of_move h.1 h.2 hm⟩)
      ⟨.initial n m W, nofun⟩
    exact hinv.2 hend
  obtain ⟨l, h⟩ := hsound.tracked
  obtain rfl := List.length_eq_zero_iff.mp (h.holds.len.symm.trans hempty)
  have hover := hsound.toWf.worker_over (by rw [hend]; rfl)
  have hhand (i : Fin n) (p : Nat) : (s.worker i).job ≠ some p := by
    rcases hover i with hi | hi <;> rw [hi] <;> nofun
  have horder : addedJobs s.trace = takenJobs s.trace := h.order.trans (List.append_nil _)
  refine ⟨horder, fun p hp ↦ ⟨fun hfinished ↦ ?_, fun hkept ↦ ?_⟩, fun p ↦ ?_, hover⟩
  · obtain ⟨i, w, hw⟩ := mem_finishedJobs.mp hfinished
    exact not_dropped_of_pulled (List.nodup_append.mp h.taken_nodup).1 (h.ran i p w hw)
  · rw [horder] at hp
    rcases mem_takenJobs.mp hp with ⟨i, hi⟩ | hdropped
    · rcases h.pulled i p hi with hi | ⟨w, hw⟩
      · exact absurd hi (hhand i p)
      · exact mem_finishedJobs.mpr ⟨i, w, hw⟩
    · exact absurd hdropped hkept
  · by_contra hcell
    rcases h.live p hcell with hl | ⟨i, hi⟩ | ⟨k, w, hk⟩
    · cases hl
    · exact hhand i p hi
    · rw [hsound.staged.quiet (by rw [hend]; nofun) k] at hk
      cases hk

/-- One job is run and the other one, for which the worker does not come back, is freed. -/
theorem thpool_destroy_complete_sample :
    ∃ s : Pool 1 1 Nat, addedJobs s.trace = [0, 1] ∧ finishedJobs s.trace = [0] ∧
      addedJobs s.trace = takenJobs s.trace := by
  have h : (follow poolStep Unguarded (opening 0 ++ errand 0 7 ++ labour 0 4 ++ errand 0 8 ++
      [.master true none] ++ labour 0 7 ++ List.replicate 3 (.master true none))
      (Pool.initial 1 1 Nat)).any (fun s ↦ decide (s.stage = .destroyed) &&
        (addedJobs s.trace == [0, 1] && finishedJobs s.trace == [0])) = true := by decide
  obtain ⟨s, hrun, hs⟩ := Run.exists_of_follow h
  obtain ⟨hstage, hs⟩ := Bool.and_eq_true_iff.mp hs
  obtain ⟨hadded, hfinished⟩ := Bool.and_eq_true_iff.mp hs
  exact ⟨s, beq_iff_eq.mp hadded, beq_iff_eq.mp hfinished,
    (thpool_destroy_complete hrun (of_decide_eq_true hstage)).1⟩

end Q2Admin
