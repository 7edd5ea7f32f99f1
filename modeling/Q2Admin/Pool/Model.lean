import Mathlib.Data.Fintype.Basic
import Mathlib.Data.Fin.Basic
import Q2Admin.Pool.Queue
import Q2Admin.Base.Run

/-!
# The thread pool

Library `Q2Admin.Pool`. Source `threadpool.c`. A pool has `n` worker threads; `m` other threads
add work to it and wait for it, and one thread creates and destroys it. A step is one access to
the memory that they share: what a thread does while it holds a lock is one step where only
threads that hold the same lock can see it, and the sections in which others can see something in
between are cut there. So `len`, which `thpool_wait` reads without the lock of the queue, changes
before the post for the job does, and `num_threads_alive`, which `thpool_destroy` reads without a
lock, changes before its lock is released. The counters count objects that exist and are natural
numbers. The scope is one pool, since `threads_keepalive` is one static for all pools of the
program, and jobs that return and do not call the pool themselves. Where `pthread_create` fails
there is no thread here, while `thread_init` goes on to detach one that has not been set. Left
out: `thpool_pause` and `thpool_resume`, which interrupt threads by a signal.
-/

namespace Q2Admin

variable {n m : Nat} {W : Type}

/-- What a step of a thread comes to. -/
inductive Outcome (σ : Type)
  /-- The thread has to wait. -/
  | blocked
  /-- Memory is used that is not allocated. -/
  | fault
  | next (s : σ)

/-- Where a worker is in `thread_do`; `threadpool.c:317–384`. -/
inductive WorkerPc
  /-- Its thread has not been created. -/
  | absent
  /-- Before `num_threads_alive += 1`. -/
  | born
  /-- At the head of the loop. -/
  | top
  /-- In `bsem_wait`, before its test. -/
  | waiting
  /-- In `pthread_cond_wait` of `bsem_wait`. -/
  | asleep
  /-- Behind `bsem_wait`. -/
  | token
  /-- Before `num_threads_working++`. -/
  | counting
  /-- Before `jobqueue_pull`. -/
  | pulling
  /-- In `jobqueue_pull` with a job, before the post for the others. -/
  | posting (job : Nat)
  /-- The function of the job runs. -/
  | running (job : Nat)
  /-- Before `num_threads_working--`. -/
  | ending
  /-- Behind the loop, before `num_threads_alive--`. -/
  | exiting
  /-- Before the last `pthread_mutex_unlock`. -/
  | leaving
  /-- The thread has returned. -/
  | gone
  deriving DecidableEq

/-- The thread is in `thread_do`. -/
def WorkerPc.isPresent : WorkerPc → Bool
  | .absent | .gone => false
  | _ => true

/-- Where another thread is in `thpool_add_work` or `thpool_wait`; `threadpool.c:176–203`. -/
inductive ClientPc (W : Type)
  /-- Outside of both. -/
  | idle
  /-- In `thpool_add_work`, before `jobqueue_push`. -/
  | adding (job : Nat) (work : W)
  /-- In `jobqueue_push`, before the post. -/
  | pushed
  /-- In `thpool_wait`, before it has the lock. -/
  | locking
  /-- Before it reads `len`. -/
  | seeingLen
  /-- Before it reads `num_threads_working`. -/
  | seeingWorking
  /-- Before `pthread_cond_wait`. -/
  | blocking
  /-- In `pthread_cond_wait`. -/
  | blocked
  /-- Before the unlock at the end. -/
  | satisfied

/-- The thread is in no call. -/
def ClientPc.isIdle : ClientPc W → Bool
  | .idle => true
  | _ => false

/-- The thread is blocked in `pthread_cond_wait`. -/
def ClientPc.isBlocked : ClientPc W → Bool
  | .blocked => true
  | _ => false

/-- Where the thread is that creates and destroys the pool. -/
inductive Stage
  /-- In `thpool_init`, with the first threads made. -/
  | creating (made : Nat)
  /-- In `thpool_init`, in the loop that waits for the threads. -/
  | spinning
  /-- Between `thpool_init` and `thpool_destroy`. -/
  | ready
  /-- In one of the two loops of `thpool_destroy`. -/
  | draining
  /-- In `jobqueue_clear`. -/
  | clearing
  /-- The memory of the pool is free. -/
  | destroyed
  deriving DecidableEq

/-- The threads that take the locks of a pool. -/
abbrev Thread (n m : Nat) := Fin n ⊕ Fin m

/-- What happens to jobs, and the calls of `thpool_wait`. -/
inductive PoolEvent (n m : Nat) (W : Type)
  | added (job : Nat) (work : W)
  | pulled (worker : Fin n) (job : Nat)
  | finished (worker : Fin n) (job : Nat) (work : W)
  /-- The job has been freed without having been run. -/
  | dropped (job : Nat)
  | waiting (client : Fin m)
  | waited (client : Fin m)

/-- `thpool_` with the queue, the threads and the jobs; `threadpool.c:36–88`. -/
structure Pool (n m : Nat) (W : Type) where
  keepalive : Bool
  alive : Nat
  working : Nat
  /-- Who holds `thcount_lock`. -/
  countLock : Option (Thread n m)
  queue : JobQueue
  /-- Who holds `rwmutex`. -/
  queueLock : Option (Thread n m)
  /-- The value of the semaphore `has_jobs`. -/
  hasJobs : Bool
  jobs : Jobs W
  /-- The next allocation of a job. -/
  nextJob : Nat
  worker : Fin n → WorkerPc
  client : Fin m → ClientPc W
  stage : Stage
  /-- What has happened, newest first. -/
  trace : List (PoolEvent n m W)

namespace Pool

/-- A worker goes on to another place. -/
def workerTo (s : Pool n m W) (i : Fin n) (pc : WorkerPc) : Pool n m W :=
  { s with worker := Function.update s.worker i pc }

/-- A client goes on to another place. -/
def clientTo (s : Pool n m W) (k : Fin m) (pc : ClientPc W) : Pool n m W :=
  { s with client := Function.update s.client k pc }

/-- `bsem_post`, which wakes a worker that is asleep, if there is one; `threadpool.c:522–527`. -/
def bsemPost (s : Pool n m W) (wakes : Option (Fin n)) : Outcome (Pool n m W) :=
  match wakes with
  | some i =>
    if s.worker i = .asleep then .next ({ s with hasJobs := true }.workerTo i .waiting)
    else .blocked
  | none => if ∀ i, s.worker i ≠ .asleep then .next { s with hasJobs := true } else .blocked

/-- `bsem_post_all`; `threadpool.c:531–536`. -/
def bsemPostAll (s : Pool n m W) : Pool n m W :=
  { s with
    hasJobs := true
    worker := fun i ↦ if s.worker i = .asleep then .waiting else s.worker i }

/-- The signal on `threads_all_idle`, which wakes a thread that waits for it, if there is one. -/
def signalIdle (s : Pool n m W) (wakes : Option (Fin m)) : Outcome (Pool n m W) :=
  match wakes with
  | some k => if (s.client k).isBlocked then .next (s.clientTo k .locking) else .blocked
  | none => if ∀ k, (s.client k).isBlocked = false then .next s else .blocked

/-- A step of a worker; `threadpool.c:344–383`. -/
def threadDo (s : Pool n m W) (i : Fin n) (wakes : Option (Fin n)) (signals : Option (Fin m)) :
    Outcome (Pool n m W) :=
  match s.worker i with
  | .absent | .asleep | .gone => .blocked
  | .born =>
    if s.countLock = none then .next ({ s with alive := s.alive + 1 }.workerTo i .top)
    else .blocked
  | .top => .next (s.workerTo i (if s.keepalive then .waiting else .exiting))
  | .waiting =>
    if s.hasJobs then .next ({ s with hasJobs := false }.workerTo i .token)
    else .next (s.workerTo i .asleep)
  | .token => .next (s.workerTo i (if s.keepalive then .counting else .top))
  | .counting =>
    if s.countLock = none then .next ({ s with working := s.working + 1 }.workerTo i .pulling)
    else .blocked
  | .pulling =>
    if s.queueLock = none then
      match jobqueuePull s.queue s.jobs with
      | none => .fault
      | some (none, queue) => .next ({ s with queue := queue }.workerTo i .ending)
      | some (some job, queue) =>
        let taken := { s with queue := queue, trace := .pulled i job :: s.trace }
        if s.queue.len ≤ 1 then .next (taken.workerTo i (.running job))
        else .next ({ taken with queueLock := some (.inl i) }.workerTo i (.posting job))
    else .blocked
  | .posting job => bsemPost ({ s with queueLock := none }.workerTo i (.running job)) wakes
  | .running p =>
    match s.jobs p with
    | none => .fault
    | some job =>
      .next ({ s with
        jobs := Function.update s.jobs p none
        trace := .finished i p job.work :: s.trace }.workerTo i .ending)
  | .ending =>
    if s.countLock = none then
      let ended := { s with working := s.working - 1 }.workerTo i .top
      if ended.working = 0 then ended.signalIdle signals else .next ended
    else .blocked
  | .exiting =>
    if s.countLock = none then
      .next ({ s with alive := s.alive - 1, countLock := some (.inl i) }.workerTo i .leaving)
    else .blocked
  | .leaving => .next ({ s with countLock := none }.workerTo i .gone)

/-- A step of a thread in `thpool_add_work` or `thpool_wait`; `threadpool.c:190`,
`threadpool.c:198–202`. -/
def clientDo (s : Pool n m W) (k : Fin m) (wakes : Option (Fin n)) : Outcome (Pool n m W) :=
  match s.client k with
  | .idle | .blocked => .blocked
  | .adding p work =>
    if s.queueLock = none then
      match jobqueuePush s.queue s.jobs p with
      | none => .fault
      | some (queue, jobs) =>
        .next ({ s with
          queue := queue
          jobs := jobs
          queueLock := some (.inr k)
          trace := .added p work :: s.trace }.clientTo k .pushed)
    else .blocked
  | .pushed => bsemPost ({ s with queueLock := none }.clientTo k .idle) wakes
  | .locking =>
    if s.countLock = none then .next ({ s with countLock := some (.inr k) }.clientTo k .seeingLen)
    else .blocked
  | .seeingLen => .next (s.clientTo k (if s.queue.len = 0 then .seeingWorking else .blocking))
  | .seeingWorking => .next (s.clientTo k (if s.working = 0 then .satisfied else .blocking))
  | .blocking => .next ({ s with countLock := none }.clientTo k .blocked)
  | .satisfied =>
    .next ({ s with countLock := none, trace := .waited k :: s.trace }.clientTo k .idle)

/-- The call of `thpool_add_work`, up to `jobqueue_push`. There may be no memory for the job;
`threadpool.c:176–187`. -/
def thpoolAddWork (s : Pool n m W) (k : Fin m) (work : W) (memory : Bool) :
    Outcome (Pool n m W) :=
  if s.stage = .ready ∧ (s.client k).isIdle then
    if memory then
      .next ({ s with
        jobs := Function.update s.jobs s.nextJob (some ⟨none, work⟩)
        nextJob := s.nextJob + 1 }.clientTo k (.adding s.nextJob work))
    else .next s
  else .blocked

/-- The call of `thpool_wait`; `threadpool.c:197`. -/
def thpoolWait (s : Pool n m W) (k : Fin m) : Outcome (Pool n m W) :=
  if s.stage = .ready ∧ (s.client k).isIdle then
    .next ({ s with trace := .waiting k :: s.trace }.clientTo k .locking)
  else .blocked

/-- A step of the thread that creates and destroys the pool. It destroys it when no other thread
is in a call. `created` is whether a thread could be created; `threadpool.c:159–169`,
`threadpool.c:207–241`. -/
def masterDo (s : Pool n m W) (created : Bool) (wakes : Option (Fin n)) : Outcome (Pool n m W) :=
  match s.stage with
  | .creating made =>
    if h : made < n then
      let started := if created then s.workerTo ⟨made, h⟩ .born else s
      .next { started with stage := .creating (made + 1) }
    else .next { s with stage := .spinning }
  | .spinning => if s.alive = n then .next { s with stage := .ready } else .blocked
  | .ready =>
    if ∀ k, (s.client k).isIdle then .next { s with keepalive := false, stage := .draining }
    else .blocked
  | .draining => if s.alive = 0 then .next { s with stage := .clearing } else .next s.bsemPostAll
  | .clearing =>
    if s.queue.len = 0 then
      .next { s with queue := .empty, hasJobs := false, stage := .destroyed }
    else if s.queueLock = none then
      match jobqueuePull s.queue s.jobs with
      | none => .fault
      | some (none, queue) => .next { s with queue := queue }
      | some (some p, queue) =>
        if (s.jobs p).isNone then .fault
        else
          let freed := { s with
            queue := queue
            jobs := Function.update s.jobs p none
            trace := .dropped p :: s.trace }
          if s.queue.len ≤ 1 then .next freed else freed.bsemPost wakes
    else .blocked
  | .destroyed => .blocked

/-- A wake-up without a signal, as `pthread_cond_wait` permits it. -/
def stir (s : Pool n m W) : Thread n m → Outcome (Pool n m W)
  | .inl i => if s.worker i = .asleep then .next (s.workerTo i .waiting) else .blocked
  | .inr k => if (s.client k).isBlocked then .next (s.clientTo k .locking) else .blocked

end Pool

/-- The next step, with what the system chooses in it: the threads that signals wake. -/
inductive PoolAct (n m : Nat) (W : Type)
  | worker (i : Fin n) (wakes : Option (Fin n)) (signals : Option (Fin m))
  | client (k : Fin m) (wakes : Option (Fin n))
  | master (created : Bool) (wakes : Option (Fin n))
  | addWork (k : Fin m) (work : W) (memory : Bool)
  | wait (k : Fin m)
  | stir (t : Thread n m)

/-- What a step of the pool comes to. Workers use its memory as long as they are present. -/
def Pool.act (s : Pool n m W) : PoolAct n m W → Outcome (Pool n m W)
  | .worker i wakes signals =>
    if s.stage = .destroyed ∧ (s.worker i).isPresent then .fault else s.threadDo i wakes signals
  | .client k wakes => s.clientDo k wakes
  | .master created wakes => s.masterDo created wakes
  | .addWork k work memory => s.thpoolAddWork k work memory
  | .wait k => s.thpoolWait k
  | .stir t => s.stir t

/-- The step, if it can be taken. -/
def poolStep (a : PoolAct n m W) (s : Pool n m W) : Option (Pool n m W) :=
  match s.act a with
  | .next s' => some s'
  | _ => none

/-- The pool before its first thread is created; `threadpool.c:123–157`. -/
def Pool.initial (n m : Nat) (W : Type) : Pool n m W where
  keepalive := true
  alive := 0
  working := 0
  countLock := none
  queue := .empty
  queueLock := none
  hasJobs := false
  jobs _ := none
  nextJob := 0
  worker _ := .absent
  client _ := .idle
  stage := .creating 0
  trace := []

end Q2Admin
