import Q2Admin.Pool.Model

/-!
# What a step of the pool can do

Library `Q2Admin.Pool`. `PoolMove` lists the steps of all threads with the conditions under which
they are taken; `poolMove_of_step` says that there are no others.
-/

namespace Q2Admin

variable {n m : Nat} {W : Type}

/-- What `bsem_post` does. -/
inductive Posted (s : Pool n m W) : Pool n m W → Prop
  | woken (i : Fin n) (asleep : s.worker i = .asleep) :
      Posted s ({ s with hasJobs := true }.workerTo i .waiting)
  | unheard (awake : ∀ i, s.worker i ≠ .asleep) : Posted s { s with hasJobs := true }

/-- What the signal on `threads_all_idle` does. -/
inductive Signalled (s : Pool n m W) : Pool n m W → Prop
  | woken (k : Fin m) (blocked : (s.client k).isBlocked = true) :
      Signalled s (s.clientTo k .locking)
  | unheard (awake : ∀ k, (s.client k).isBlocked = false) : Signalled s s

/-- The steps of a worker. -/
inductive WorkerMove (s : Pool n m W) (i : Fin n) : Pool n m W → Prop
  | start (place : s.worker i = .born) (free : s.countLock = none) :
      WorkerMove s i ({ s with alive := s.alive + 1 }.workerTo i .top)
  | enter (place : s.worker i = .top) (keep : s.keepalive = true) :
      WorkerMove s i (s.workerTo i .waiting)
  | quit (place : s.worker i = .top) (stop : s.keepalive = false) :
      WorkerMove s i (s.workerTo i .exiting)
  | take (place : s.worker i = .waiting) (posted : s.hasJobs = true) :
      WorkerMove s i ({ s with hasJobs := false }.workerTo i .token)
  | sleep (place : s.worker i = .waiting) (unposted : s.hasJobs = false) :
      WorkerMove s i (s.workerTo i .asleep)
  | proceed (place : s.worker i = .token) (keep : s.keepalive = true) :
      WorkerMove s i (s.workerTo i .counting)
  | turn (place : s.worker i = .token) (stop : s.keepalive = false) :
      WorkerMove s i (s.workerTo i .top)
  | count (place : s.worker i = .counting) (free : s.countLock = none) :
      WorkerMove s i ({ s with working := s.working + 1 }.workerTo i .pulling)
  | pullNone {queue : JobQueue} (place : s.worker i = .pulling) (free : s.queueLock = none)
      (pull : jobqueuePull s.queue s.jobs = some (none, queue)) :
      WorkerMove s i ({ s with queue := queue }.workerTo i .ending)
  | pullLast {queue : JobQueue} {job : Nat} (place : s.worker i = .pulling)
      (free : s.queueLock = none) (pull : jobqueuePull s.queue s.jobs = some (some job, queue))
      (last : s.queue.len ≤ 1) :
      WorkerMove s i ({ s with queue := queue, trace := .pulled i job :: s.trace }.workerTo i
        (.running job))
  | pullMore {queue : JobQueue} {job : Nat} (place : s.worker i = .pulling)
      (free : s.queueLock = none) (pull : jobqueuePull s.queue s.jobs = some (some job, queue))
      (more : ¬ s.queue.len ≤ 1) :
      WorkerMove s i ({ s with
        queue := queue
        trace := .pulled i job :: s.trace
        queueLock := some (.inl i) }.workerTo i (.posting job))
  | post {job : Nat} {s' : Pool n m W} (place : s.worker i = .posting job)
      (posted : Posted ({ s with queueLock := none }.workerTo i (.running job)) s') :
      WorkerMove s i s'
  | finish {p : Nat} {job : Job W} (place : s.worker i = .running p)
      (cell : s.jobs p = some job) :
      WorkerMove s i ({ s with
        jobs := Function.update s.jobs p none
        trace := .finished i p job.work :: s.trace }.workerTo i .ending)
  | endMore (place : s.worker i = .ending) (free : s.countLock = none)
      (more : s.working - 1 ≠ 0) :
      WorkerMove s i ({ s with working := s.working - 1 }.workerTo i .top)
  | endLast {s' : Pool n m W} (place : s.worker i = .ending) (free : s.countLock = none)
      (last : s.working - 1 = 0)
      (signalled : Signalled ({ s with working := s.working - 1 }.workerTo i .top) s') :
      WorkerMove s i s'
  | exit (place : s.worker i = .exiting) (free : s.countLock = none) :
      WorkerMove s i
        ({ s with alive := s.alive - 1, countLock := some (.inl i) }.workerTo i .leaving)
  | leave (place : s.worker i = .leaving) :
      WorkerMove s i ({ s with countLock := none }.workerTo i .gone)
  | stir (place : s.worker i = .asleep) : WorkerMove s i (s.workerTo i .waiting)

/-- The steps of a thread that adds work or waits. -/
inductive ClientMove (s : Pool n m W) (k : Fin m) : Pool n m W → Prop
  | add {work : W} (stage : s.stage = .ready) (place : s.client k = .idle) :
      ClientMove s k ({ s with
        jobs := Function.update s.jobs s.nextJob (some ⟨none, work⟩)
        nextJob := s.nextJob + 1 }.clientTo k (.adding s.nextJob work))
  | push {p : Nat} {work : W} {queue : JobQueue} {jobs : Jobs W}
      (place : s.client k = .adding p work) (free : s.queueLock = none)
      (push : jobqueuePush s.queue s.jobs p = some (queue, jobs)) :
      ClientMove s k ({ s with
        queue := queue
        jobs := jobs
        queueLock := some (.inr k)
        trace := .added p work :: s.trace }.clientTo k .pushed)
  | post {s' : Pool n m W} (place : s.client k = .pushed)
      (posted : Posted ({ s with queueLock := none }.clientTo k .idle) s') : ClientMove s k s'
  | wait (stage : s.stage = .ready) (place : s.client k = .idle) :
      ClientMove s k ({ s with trace := .waiting k :: s.trace }.clientTo k .locking)
  | lock (place : s.client k = .locking) (free : s.countLock = none) :
      ClientMove s k ({ s with countLock := some (.inr k) }.clientTo k .seeingLen)
  | seeEmpty (place : s.client k = .seeingLen) (empty : s.queue.len = 0) :
      ClientMove s k (s.clientTo k .seeingWorking)
  | seeJobs (place : s.client k = .seeingLen) (jobs : s.queue.len ≠ 0) :
      ClientMove s k (s.clientTo k .blocking)
  | seeIdle (place : s.client k = .seeingWorking) (idle : s.working = 0) :
      ClientMove s k (s.clientTo k .satisfied)
  | seeWorking (place : s.client k = .seeingWorking) (working : s.working ≠ 0) :
      ClientMove s k (s.clientTo k .blocking)
  | block (place : s.client k = .blocking) :
      ClientMove s k ({ s with countLock := none }.clientTo k .blocked)
  | leave (place : s.client k = .satisfied) :
      ClientMove s k
        ({ s with countLock := none, trace := .waited k :: s.trace }.clientTo k .idle)
  | stir (place : (s.client k).isBlocked = true) : ClientMove s k (s.clientTo k .locking)

/-- The steps of the thread that creates and destroys the pool. -/
inductive MasterMove (s : Pool n m W) : Pool n m W → Prop
  | create {made : Nat} (stage : s.stage = .creating made) (more : made < n) :
      MasterMove s { s.workerTo ⟨made, more⟩ .born with stage := .creating (made + 1) }
  | miss {made : Nat} (stage : s.stage = .creating made) (more : made < n) :
      MasterMove s { s with stage := .creating (made + 1) }
  | spin {made : Nat} (stage : s.stage = .creating made) (done : ¬ made < n) :
      MasterMove s { s with stage := .spinning }
  | ready (stage : s.stage = .spinning) (alive : s.alive = n) :
      MasterMove s { s with stage := .ready }
  | stop (stage : s.stage = .ready) (idle : ∀ k, (s.client k).isIdle = true) :
      MasterMove s { s with keepalive := false, stage := .draining }
  | rouse (stage : s.stage = .draining) (alive : s.alive ≠ 0) : MasterMove s s.bsemPostAll
  | drained (stage : s.stage = .draining) (dead : s.alive = 0) :
      MasterMove s { s with stage := .clearing }
  | dropNone {queue : JobQueue} (stage : s.stage = .clearing) (free : s.queueLock = none)
      (more : s.queue.len ≠ 0) (pull : jobqueuePull s.queue s.jobs = some (none, queue)) :
      MasterMove s { s with queue := queue }
  | dropLast {queue : JobQueue} {p : Nat} (stage : s.stage = .clearing)
      (free : s.queueLock = none) (more : s.queue.len ≠ 0)
      (pull : jobqueuePull s.queue s.jobs = some (some p, queue)) (last : s.queue.len ≤ 1) :
      MasterMove s { s with
        queue := queue
        jobs := Function.update s.jobs p none
        trace := .dropped p :: s.trace }
  | dropMore {queue : JobQueue} {p : Nat} {s' : Pool n m W} (stage : s.stage = .clearing)
      (free : s.queueLock = none) (more : s.queue.len ≠ 0)
      (pull : jobqueuePull s.queue s.jobs = some (some p, queue)) (rest : ¬ s.queue.len ≤ 1)
      (posted : Posted { s with
        queue := queue
        jobs := Function.update s.jobs p none
        trace := .dropped p :: s.trace } s') :
      MasterMove s s'
  | destroy (stage : s.stage = .clearing) (empty : s.queue.len = 0) :
      MasterMove s { s with queue := .empty, hasJobs := false, stage := .destroyed }

/-- A step of the pool that changes something. -/
inductive PoolMove (s s' : Pool n m W) : Prop
  | worker (i : Fin n) (move : WorkerMove s i s')
  | client (k : Fin m) (move : ClientMove s k s')
  | master (move : MasterMove s s')

variable {s s' : Pool n m W}

/-- A post leaves the stage of the pool. -/
theorem Posted.stage (h : Posted s s') : s'.stage = s.stage := by cases h <;> rfl

/-- A worker's move leaves the stage of the pool. -/
theorem WorkerMove.stage {i : Fin n} (h : WorkerMove s i s') : s'.stage = s.stage := by
  cases h with
  | post place posted => exact posted.stage
  | endLast place free last signalled => cases signalled <;> rfl
  | _ => rfl

/-- A client's move leaves the stage of the pool. -/
theorem ClientMove.stage {k : Fin m} (h : ClientMove s k s') : s'.stage = s.stage := by
  cases h with
  | post place posted => exact posted.stage
  | _ => rfl

private theorem posted_of_bsemPost {wakes : Option (Fin n)} (h : s.bsemPost wakes = .next s') :
    Posted s s' := by
  cases wakes with
  | none =>
    simp only [Pool.bsemPost] at h
    split at h
    · next hawake =>
      cases h
      exact .unheard hawake
    · cases h
  | some i =>
    simp only [Pool.bsemPost] at h
    split at h
    · next hasleep =>
      cases h
      exact .woken i hasleep
    · cases h

private theorem signalled_of_signalIdle {wakes : Option (Fin m)}
    (h : s.signalIdle wakes = .next s') :
    Signalled s s' := by
  cases wakes with
  | none =>
    simp only [Pool.signalIdle] at h
    split at h
    · next hawake =>
      cases h
      exact .unheard hawake
    · cases h
  | some k =>
    simp only [Pool.signalIdle] at h
    split at h
    · next hblocked =>
      cases h
      exact .woken k hblocked
    · cases h

private theorem workerMove_of_threadDo {i : Fin n} {wakes : Option (Fin n)}
    {signals : Option (Fin m)} (h : s.threadDo i wakes signals = .next s') :
    WorkerMove s i s' := by
  cases hplace : s.worker i <;> simp only [Pool.threadDo, hplace, reduceCtorEq] at h
  case born =>
    split at h
    · next hfree =>
      cases h
      exact .start hplace hfree
    · cases h
  case top =>
    cases h
    cases hkeep : s.keepalive with
    | true => exact .enter hplace hkeep
    | false => exact .quit hplace hkeep
  case waiting =>
    split at h
    · next hposted =>
      cases h
      exact .take hplace hposted
    · next hunposted =>
      cases h
      exact .sleep hplace (Bool.eq_false_of_not_eq_true hunposted)
  case token =>
    cases h
    cases hkeep : s.keepalive with
    | true => exact .proceed hplace hkeep
    | false => exact .turn hplace hkeep
  case counting =>
    split at h
    · next hfree =>
      cases h
      exact .count hplace hfree
    · cases h
  case pulling =>
    split at h
    · next hfree =>
      split at h
      · cases h
      · next hpull =>
        cases h
        exact .pullNone hplace hfree hpull
      · next hpull =>
        split at h
        · next hlast =>
          cases h
          exact .pullLast hplace hfree hpull hlast
        · next hmore =>
          cases h
          exact .pullMore hplace hfree hpull hmore
    · cases h
  case posting job => exact .post hplace (posted_of_bsemPost h)
  case running p =>
    split at h
    · cases h
    · next hcell =>
      cases h
      exact .finish hplace hcell
  case ending =>
    split at h
    · next hfree =>
      split at h
      · next hlast => exact .endLast hplace hfree hlast (signalled_of_signalIdle h)
      · next hmore =>
        cases h
        exact .endMore hplace hfree hmore
    · cases h
  case exiting =>
    split at h
    · next hfree =>
      cases h
      exact .exit hplace hfree
    · cases h
  case leaving =>
    cases h
    exact .leave hplace

private theorem clientMove_of_clientDo {k : Fin m} {wakes : Option (Fin n)}
    (h : s.clientDo k wakes = .next s') : ClientMove s k s' := by
  cases hplace : s.client k <;> simp only [Pool.clientDo, hplace, reduceCtorEq] at h
  case adding p work =>
    split at h
    · next hfree =>
      split at h
      · cases h
      · next hpush =>
        cases h
        exact .push hplace hfree hpush
    · cases h
  case pushed => exact .post hplace (posted_of_bsemPost h)
  case locking =>
    split at h
    · next hfree =>
      cases h
      exact .lock hplace hfree
    · cases h
  case seeingLen =>
    cases h
    split
    · next hempty => exact .seeEmpty hplace hempty
    · next hjobs => exact .seeJobs hplace hjobs
  case seeingWorking =>
    cases h
    split
    · next hidle => exact .seeIdle hplace hidle
    · next hworking => exact .seeWorking hplace hworking
  case blocking =>
    cases h
    exact .block hplace
  case satisfied =>
    cases h
    exact .leave hplace

private theorem masterMove_of_masterDo {created : Bool} {wakes : Option (Fin n)}
    (h : s.masterDo created wakes = .next s') : MasterMove s s' := by
  cases hstage : s.stage <;> simp only [Pool.masterDo, hstage, reduceCtorEq] at h
  case creating made =>
    split at h
    · next hmore =>
      cases h
      cases created with
      | true => exact .create hstage hmore
      | false => exact .miss hstage hmore
    · next hdone =>
      cases h
      exact .spin hstage hdone
  case spinning =>
    split at h
    · next halive =>
      cases h
      exact .ready hstage halive
    · cases h
  case ready =>
    split at h
    · next hidle =>
      cases h
      exact .stop hstage hidle
    · cases h
  case draining =>
    split at h
    · next hdead =>
      cases h
      exact .drained hstage hdead
    · next halive =>
      cases h
      exact .rouse hstage halive
  case clearing =>
    rw [← hstage] at h
    split at h
    · next hempty =>
      cases h
      exact .destroy hstage hempty
    · next hmore =>
      split at h
      · next hfree =>
        split at h
        · cases h
        · next hpull =>
          cases h
          exact .dropNone hstage hfree hmore hpull
        · next hpull =>
          split at h
          · cases h
          · split at h
            · next hlast =>
              cases h
              exact .dropLast hstage hfree hmore hpull hlast
            · next hrest => exact .dropMore hstage hfree hmore hpull hrest (posted_of_bsemPost h)
      · cases h

/-- The place outside all calls is the only idle one. -/
theorem ClientPc.eq_idle {pc : ClientPc W} (h : pc.isIdle = true) : pc = .idle := by
  cases pc <;> first | rfl | cases h

/-- The place inside `pthread_cond_wait` is the only blocked one. -/
theorem ClientPc.eq_blocked {pc : ClientPc W} (h : pc.isBlocked = true) : pc = .blocked := by
  cases pc <;> first | rfl | cases h

/-- A worker that is asleep takes no step by itself. -/
theorem workerMove_of_act {i : Fin n} {wakes : Option (Fin n)} {signals : Option (Fin m)}
    (h : s.act (.worker i wakes signals) = .next s') :
    WorkerMove s i s' ∧ s.worker i ≠ .asleep := by
  simp only [Pool.act] at h
  split at h
  · cases h
  · refine ⟨workerMove_of_threadDo h, fun hplace ↦ ?_⟩
    simp only [Pool.threadDo, hplace, reduceCtorEq] at h

/-- A client that is in no call, or blocked in one, takes no step by itself. -/
theorem clientMove_of_act {k : Fin m} {wakes : Option (Fin n)}
    (h : s.act (.client k wakes) = .next s') :
    ClientMove s k s' ∧ s.client k ≠ .idle ∧ s.client k ≠ .blocked := by
  refine ⟨clientMove_of_clientDo h, fun hplace ↦ ?_, fun hplace ↦ ?_⟩ <;>
    simp only [Pool.act, Pool.clientDo, hplace, reduceCtorEq] at h

/-- A step that is taken is the action of its thread. -/
theorem act_of_step {a : PoolAct n m W} (h : poolStep a s = some s') : s.act a = .next s' := by
  unfold poolStep at h
  split at h
  · next hnext =>
    cases h
    exact hnext
  · cases h

/-- A step is one of the listed ones, or a call for which there is no memory. -/
theorem poolMove_of_step {a : PoolAct n m W} (h : poolStep a s = some s') :
    PoolMove s s' ∨ s' = s := by
  have hact := act_of_step h
  cases a with
  | worker i wakes signals => exact .inl (.worker i (workerMove_of_act hact).1)
  | client k wakes => exact .inl (.client k (clientMove_of_act hact).1)
  | master created wakes => exact .inl (.master (masterMove_of_masterDo hact))
  | addWork k work memory =>
    simp only [Pool.act, Pool.thpoolAddWork] at hact
    split at hact
    · next hcall =>
      cases memory with
      | true =>
        cases hact
        exact .inl (.client k (.add hcall.1 (ClientPc.eq_idle hcall.2)))
      | false =>
        cases hact
        exact .inr rfl
    · cases hact
  | wait k =>
    simp only [Pool.act, Pool.thpoolWait] at hact
    split at hact
    · next hcall =>
      cases hact
      exact .inl (.client k (.wait hcall.1 (ClientPc.eq_idle hcall.2)))
    · cases hact
  | stir t =>
    cases t with
    | inl i =>
      simp only [Pool.act, Pool.stir] at hact
      split at hact
      · next hasleep =>
        cases hact
        exact .inl (.worker i (.stir hasleep))
      · cases hact
    | inr k =>
      simp only [Pool.act, Pool.stir] at hact
      split at hact
      · next hblocked =>
        cases hact
        exact .inl (.client k (.stir hblocked))
      · cases hact

/-- What every listed step preserves holds at the end of every run. -/
theorem Run.poolInvariant {G : PoolAct n m W → Pool n m W → Prop} {I : Pool n m W → Prop}
    {acts : List (PoolAct n m W)} (hrun : Run poolStep G acts s s')
    (hmove : ∀ s s', I s → PoolMove s s' → I s') (h : I s) : I s' := by
  refine hrun.invariant (fun a s s' _ hs hi ↦ ?_) h
  rcases poolMove_of_step hs with hm | rfl
  · exact hmove s s' hi hm
  · exact hi

end Q2Admin
