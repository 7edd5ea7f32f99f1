import Q2Admin.Base.Threads
import Q2Admin.Pool.Steps

/-!
# Locks, counters and stages of the pool

Library `Q2Admin.Pool`. In every state that a pool gets to, each lock is held by the thread that is
in its section, and `num_threads_alive` and `num_threads_working` count the workers that are in the
loop and those between their increment and their decrement. `thpool_init` returns when all workers
are in the loop, and `thpool_destroy` goes past its loops when none is.
-/

namespace Q2Admin

variable {n m : Nat} {W : Type}

/-- The places in which a worker holds `thcount_lock` when another thread takes a step. -/
def WorkerPc.holdsCount : WorkerPc → Bool
  | .leaving => true
  | _ => false

/-- The worker is in a section of `rwmutex` that others can see. -/
def WorkerPc.holdsQueue : WorkerPc → Bool
  | .posting _ => true
  | _ => false

/-- The worker has been counted as alive, and not been taken off. -/
def WorkerPc.isAlive : WorkerPc → Bool
  | .absent | .born | .leaving | .gone => false
  | _ => true

/-- The worker has been counted as working, and not been taken off. -/
def WorkerPc.isWorking : WorkerPc → Bool
  | .pulling | .posting _ | .running _ | .ending => true
  | _ => false

/-- What locks and counters know of the place of a worker. -/
def WorkerPc.kind (pc : WorkerPc) : (Bool × Bool) × Bool × Bool :=
  ((pc.holdsCount, pc.holdsQueue), pc.isAlive, pc.isWorking)

/-- The client is in a section of `thcount_lock`. -/
def ClientPc.holdsCount : ClientPc W → Bool
  | .seeingLen | .seeingWorking | .blocking | .satisfied => true
  | _ => false

/-- The client is in a section of `rwmutex` that others can see. -/
def ClientPc.holdsQueue : ClientPc W → Bool
  | .pushed => true
  | _ => false

/-- What locks ask of the place of a client. -/
def ClientPc.kind (pc : ClientPc W) : Bool × Bool := (pc.holdsCount, pc.holdsQueue)

namespace Pool

/-- The threads that are in a section of `thcount_lock`. -/
def inCount (s : Pool n m W) : Thread n m → Bool :=
  Sum.elim (fun i ↦ (s.worker i).holdsCount) fun k ↦ (s.client k).holdsCount

/-- The threads that are in a section of `rwmutex`. -/
def inQueue (s : Pool n m W) : Thread n m → Bool :=
  Sum.elim (fun i ↦ (s.worker i).holdsQueue) fun k ↦ (s.client k).holdsQueue

/-- Locks and counters agree with the places of the threads. -/
structure Locked (s : Pool n m W) : Prop where
  count : Guards s.countLock s.inCount
  queue : Guards s.queueLock s.inQueue
  alive : s.alive = census WorkerPc.isAlive s.worker
  working : s.working = census WorkerPc.isWorking s.worker

variable {s s' : Pool n m W} {i : Fin n} {k : Fin m}

private theorem sumElim_update_inl {β : Type} (f : Fin n → β) (g : Fin m → β) (i : Fin n)
    (x : β) (f' : Fin n → β) (h : ∀ j, f' j = Function.update f i x j) :
    Sum.elim f' g = Function.update (Sum.elim f g) (.inl i) x := by
  rw [Sum.update_elim_inl]
  exact congrArg (Sum.elim · g) (funext h)

private theorem sumElim_update_inr {β : Type} (f : Fin n → β) (g : Fin m → β) (k : Fin m)
    (x : β) (g' : Fin m → β) (h : ∀ j, g' j = Function.update g k x j) :
    Sum.elim f g' = Function.update (Sum.elim f g) (.inr k) x := by
  rw [Sum.update_elim_inr]
  exact congrArg (Sum.elim f) (funext h)

private theorem apply_update {ι ρ β : Type} [DecidableEq ι] (p : ρ → β) (place : ι → ρ) (i j : ι)
    (x : ρ) : p (Function.update place i x j) =
      Function.update (fun j ↦ p (place j)) i (p x) j := by
  by_cases hj : j = i
  · simp [hj]
  · simp [hj]

private theorem inCount_workerTo (s : Pool n m W) (i : Fin n) (pc : WorkerPc) :
    (s.workerTo i pc).inCount = Function.update s.inCount (.inl i) pc.holdsCount :=
  sumElim_update_inl _ _ _ _ _ fun j ↦ apply_update WorkerPc.holdsCount s.worker i j pc

private theorem inQueue_workerTo (s : Pool n m W) (i : Fin n) (pc : WorkerPc) :
    (s.workerTo i pc).inQueue = Function.update s.inQueue (.inl i) pc.holdsQueue :=
  sumElim_update_inl _ _ _ _ _ fun j ↦ apply_update WorkerPc.holdsQueue s.worker i j pc

private theorem inCount_clientTo (s : Pool n m W) (k : Fin m) (pc : ClientPc W) :
    (s.clientTo k pc).inCount = Function.update s.inCount (.inr k) pc.holdsCount :=
  sumElim_update_inr _ _ _ _ _ fun j ↦ apply_update ClientPc.holdsCount s.client k j pc

private theorem inQueue_clientTo (s : Pool n m W) (k : Fin m) (pc : ClientPc W) :
    (s.clientTo k pc).inQueue = Function.update s.inQueue (.inr k) pc.holdsQueue :=
  sumElim_update_inr _ _ _ _ _ fun j ↦ apply_update ClientPc.holdsQueue s.client k j pc

/-- The locks and the counters. -/
def controls (s : Pool n m W) : (Option (Thread n m) × Option (Thread n m)) × Nat × Nat :=
  ((s.countLock, s.queueLock), s.alive, s.working)

namespace Locked

private theorem worker_follows (h : s.Locked) {pc : WorkerPc}
    (hworker : s'.worker = Function.update s.worker i pc) (hclient : s'.client = s.client)
    (hcount : Guards s'.countLock (Function.update s.inCount (.inl i) pc.holdsCount))
    (hqueue : Guards s'.queueLock (Function.update s.inQueue (.inl i) pc.holdsQueue))
    (halive : s'.alive + (s.worker i).isAlive.toNat = s.alive + pc.isAlive.toNat)
    (hworking : s'.working + (s.worker i).isWorking.toNat = s.working + pc.isWorking.toNat) :
    s'.Locked := by
  refine ⟨?_, ?_, ?_, ?_⟩
  · have hin : s'.inCount = (s.workerTo i pc).inCount := by
      unfold inCount
      rw [hworker, hclient]
      rfl
    rw [hin, inCount_workerTo]
    exact hcount
  · have hin : s'.inQueue = (s.workerTo i pc).inQueue := by
      unfold inQueue
      rw [hworker, hclient]
      rfl
    rw [hin, inQueue_workerTo]
    exact hqueue
  · have hcensus := census_update WorkerPc.isAlive s.worker i pc
    rw [← h.alive] at hcensus
    rw [hworker]
    omega
  · have hcensus := census_update WorkerPc.isWorking s.worker i pc
    rw [← h.working] at hcensus
    rw [hworker]
    omega

/-- A worker moves to a place of the same kind. -/
theorem worker_stays (h : s.Locked) {pc : WorkerPc}
    (hworker : s'.worker = Function.update s.worker i pc) (hclient : s'.client = s.client)
    (hcontrols : s'.controls = s.controls) (hkind : pc.kind = (s.worker i).kind) : s'.Locked := by
  have hcount : s'.countLock = s.countLock := congrArg (fun c ↦ c.1.1) hcontrols
  have hqueue : s'.queueLock = s.queueLock := congrArg (fun c ↦ c.1.2) hcontrols
  have halive : s'.alive = s.alive := congrArg (fun c ↦ c.2.1) hcontrols
  have hworking : s'.working = s.working := congrArg (fun c ↦ c.2.2) hcontrols
  have hown : pc.holdsCount = s.inCount (.inl i) := congrArg (fun t ↦ t.1.1) hkind
  have hown' : pc.holdsQueue = s.inQueue (.inl i) := congrArg (fun t ↦ t.1.2) hkind
  have hpcAlive : pc.isAlive = (s.worker i).isAlive := congrArg (fun t ↦ t.2.1) hkind
  have hpcWorking : pc.isWorking = (s.worker i).isWorking := congrArg (fun t ↦ t.2.2) hkind
  refine h.worker_follows hworker hclient ?_ ?_ ?_ ?_
  · rw [hcount]
    exact h.count.stay hown
  · rw [hqueue]
    exact h.queue.stay hown'
  · rw [halive, hpcAlive]
  · rw [hworking, hpcWorking]

private theorem client_follows (h : s.Locked) {pc : ClientPc W}
    (hworker : s'.worker = s.worker) (hclient : s'.client = Function.update s.client k pc)
    (hcount : Guards s'.countLock (Function.update s.inCount (.inr k) pc.holdsCount))
    (hqueue : Guards s'.queueLock (Function.update s.inQueue (.inr k) pc.holdsQueue))
    (halive : s'.alive = s.alive) (hworking : s'.working = s.working) : s'.Locked := by
  refine ⟨?_, ?_, ?_, ?_⟩
  · have hin : s'.inCount = (s.clientTo k pc).inCount := by
      unfold inCount
      rw [hworker, hclient]
      rfl
    rw [hin, inCount_clientTo]
    exact hcount
  · have hin : s'.inQueue = (s.clientTo k pc).inQueue := by
      unfold inQueue
      rw [hworker, hclient]
      rfl
    rw [hin, inQueue_clientTo]
    exact hqueue
  · rw [halive, hworker, h.alive]
  · rw [hworking, hworker, h.working]

/-- A client moves to a place of the same kind. -/
theorem client_stays (h : s.Locked) {pc : ClientPc W}
    (hworker : s'.worker = s.worker) (hclient : s'.client = Function.update s.client k pc)
    (hcontrols : s'.controls = s.controls) (hkind : pc.kind = (s.client k).kind) : s'.Locked := by
  have hcount : s'.countLock = s.countLock := congrArg (fun c ↦ c.1.1) hcontrols
  have hqueue : s'.queueLock = s.queueLock := congrArg (fun c ↦ c.1.2) hcontrols
  have hown : pc.holdsCount = s.inCount (.inr k) := congrArg Prod.fst hkind
  have hown' : pc.holdsQueue = s.inQueue (.inr k) := congrArg Prod.snd hkind
  refine h.client_follows hworker hclient ?_ ?_ (congrArg (fun c ↦ c.2.1) hcontrols)
    (congrArg (fun c ↦ c.2.2) hcontrols)
  · rw [hcount]
    exact h.count.stay hown
  · rw [hqueue]
    exact h.queue.stay hown'

/-- What is neither a lock nor a counter nor a place does not matter. -/
theorem congr (h : s.Locked) (hworker : s'.worker = s.worker) (hclient : s'.client = s.client)
    (hcontrols : s'.controls = s.controls) : s'.Locked := by
  have hcount : s'.countLock = s.countLock := congrArg (fun c ↦ c.1.1) hcontrols
  have hqueue : s'.queueLock = s.queueLock := congrArg (fun c ↦ c.1.2) hcontrols
  have halive : s'.alive = s.alive := congrArg (fun c ↦ c.2.1) hcontrols
  have hworking : s'.working = s.working := congrArg (fun c ↦ c.2.2) hcontrols
  refine ⟨?_, ?_, ?_, ?_⟩
  · unfold inCount
    rw [hcount, hworker, hclient]
    exact h.count
  · unfold inQueue
    rw [hqueue, hworker, hclient]
    exact h.queue
  · rw [halive, hworker, h.alive]
  · rw [hworking, hworker, h.working]

/-- A post leaves the locks with who is in their sections. -/
theorem posted (h : s.Locked) (hp : Posted s s') : s'.Locked := by
  cases hp with
  | woken i asleep => exact h.worker_stays rfl rfl rfl (by rw [asleep]; rfl)
  | unheard awake => exact h.congr rfl rfl rfl

/-- A signal leaves the locks with who is in their sections. -/
theorem signalled (h : s.Locked) (hs : Signalled s s') : s'.Locked := by
  cases hs with
  | woken k blocked =>
    exact h.client_stays rfl rfl rfl (by rw [ClientPc.eq_blocked blocked]; rfl)
  | unheard awake => exact h

/-- A worker's move leaves the locks with who is in their sections. -/
theorem worker (h : s.Locked) (hm : WorkerMove s i s') : s'.Locked := by
  have hown {pc : WorkerPc} (place : s.worker i = pc) : s.inCount (.inl i) = pc.holdsCount :=
    congrArg WorkerPc.holdsCount place
  have hown' {pc : WorkerPc} (place : s.worker i = pc) : s.inQueue (.inl i) = pc.holdsQueue :=
    congrArg WorkerPc.holdsQueue place
  cases hm with
  | enter place | quit place | take place | sleep place | proceed place | turn place
  | stir place | pullNone place | pullLast place | finish place =>
    exact h.worker_stays rfl rfl rfl (by rw [place]; rfl)
  | start place free | count place free =>
    refine h.worker_follows rfl rfl (h.count.stay (hown place).symm)
      (h.queue.stay (hown' place).symm) ?_ ?_
    all_goals rw [place]; rfl
  | pullMore place free pull more =>
    have hfree : Guards none s.inQueue := free ▸ h.queue
    refine h.worker_follows rfl rfl (h.count.stay (hown place).symm) (hfree.acquire _) ?_ ?_
    all_goals rw [place]; rfl
  | post place hposted =>
    refine posted ?_ hposted
    refine h.worker_follows rfl rfl (h.count.stay (hown place).symm)
      (h.queue.release (hown' place)) ?_ ?_
    all_goals rw [place]; rfl
  | endMore place free more =>
    refine h.worker_follows rfl rfl (h.count.stay (hown place).symm)
      (h.queue.stay (hown' place).symm) ?_ ?_
    · rw [place]; rfl
    · rw [place]
      change s.working - 1 + 1 = s.working + 0
      omega
  | endLast place free last hsignalled =>
    have hpos : 0 < s.working := by
      rw [h.working]
      exact census_pos (i := i) (by rw [place]; rfl)
    refine signalled ?_ hsignalled
    refine h.worker_follows rfl rfl (h.count.stay (hown place).symm)
      (h.queue.stay (hown' place).symm) ?_ ?_
    · rw [place]; rfl
    · rw [place]
      change s.working - 1 + 1 = s.working + 0
      omega
  | exit place free =>
    have hfree : Guards none s.inCount := free ▸ h.count
    have hpos : 0 < s.alive := by
      rw [h.alive]
      exact census_pos (i := i) (by rw [place]; rfl)
    refine h.worker_follows rfl rfl (hfree.acquire _) (h.queue.stay (hown' place).symm) ?_ ?_
    · rw [place]
      change s.alive - 1 + 1 = s.alive + 0
      omega
    · rw [place]; rfl
  | leave place =>
    refine h.worker_follows rfl rfl (h.count.release (hown place))
      (h.queue.stay (hown' place).symm) ?_ ?_
    all_goals rw [place]; rfl

/-- A client's move leaves the locks with who is in their sections. -/
theorem client (h : s.Locked) (hm : ClientMove s k s') : s'.Locked := by
  have hown {pc : ClientPc W} (place : s.client k = pc) : s.inCount (.inr k) = pc.holdsCount :=
    congrArg ClientPc.holdsCount place
  have hown' {pc : ClientPc W} (place : s.client k = pc) : s.inQueue (.inr k) = pc.holdsQueue :=
    congrArg ClientPc.holdsQueue place
  cases hm with
  | seeEmpty place | seeJobs place | seeIdle place | seeWorking place | add _ place
  | wait _ place =>
    exact h.client_stays rfl rfl rfl (by rw [place]; rfl)
  | stir place => exact h.client_stays rfl rfl rfl (by rw [ClientPc.eq_blocked place]; rfl)
  | push place free push =>
    have hfree : Guards none s.inQueue := free ▸ h.queue
    exact h.client_follows rfl rfl (h.count.stay (hown place).symm) (hfree.acquire _) rfl rfl
  | post place hposted =>
    refine posted ?_ hposted
    exact h.client_follows rfl rfl (h.count.stay (hown place).symm)
      (h.queue.release (hown' place)) rfl rfl
  | lock place free =>
    have hfree : Guards none s.inCount := free ▸ h.count
    exact h.client_follows rfl rfl (hfree.acquire _) (h.queue.stay (hown' place).symm) rfl rfl
  | block place | leave place =>
    exact h.client_follows rfl rfl (h.count.release (hown place))
      (h.queue.stay (hown' place).symm) rfl rfl

end Locked

end Pool

/-- `thpool_destroy` has not been called. -/
def Stage.keeps : Stage → Bool
  | .creating _ | .spinning | .ready => true
  | _ => false

/-- `thpool_init` has returned. -/
def Stage.isMade : Stage → Bool
  | .creating _ | .spinning => false
  | _ => true

/-- `thpool_destroy` has seen that no worker is alive. -/
def Stage.isOver : Stage → Bool
  | .clearing | .destroyed => true
  | _ => false

/-- The worker has got into the loop. -/
def WorkerPc.hasStarted : WorkerPc → Bool
  | .absent | .born => false
  | _ => true

/-- The worker has left the loop. -/
def WorkerPc.isOut : WorkerPc → Bool
  | .exiting | .leaving | .gone => true
  | _ => false

namespace Pool

variable {s s' : Pool n m W} {i : Fin n} {k : Fin m}

/-- What holds of the threads in the stages of the pool. -/
structure Staged (s : Pool n m W) : Prop where
  keepalive : s.keepalive = s.stage.keeps
  unmade : ∀ made, s.stage = .creating made → ∀ i : Fin n, made ≤ i.val → s.worker i = .absent
  made : s.stage.isMade = true → ∀ i, (s.worker i).hasStarted = true
  loop : s.stage.keeps = true → ∀ i, (s.worker i).isOut = false
  quiet : s.stage ≠ .ready → ∀ k, s.client k = .idle
  ended : s.stage.isOver = true → s.alive = 0

namespace Staged

private theorem worker_follows (h : s.Staged) {pc : WorkerPc}
    (hworker : s'.worker = Function.update s.worker i pc) (hclient : s'.client = s.client)
    (hstage : s'.stage = s.stage) (hkeep : s'.keepalive = s.keepalive)
    (hthere : s.worker i ≠ .absent) (hstarted : pc.hasStarted = true)
    (hout : s.stage.keeps = true → pc.isOut = false)
    (hover : s.stage.isOver = true → s'.alive = 0) : s'.Staged := by
  refine ⟨?_, ?_, ?_, ?_, ?_, ?_⟩
  · rw [hkeep, hstage, h.keepalive]
  · rw [hstage, hworker]
    intro made hmade j hj
    have habsent := h.unmade made hmade j hj
    have hne : j ≠ i := fun heq ↦ hthere (heq ▸ habsent)
    rw [Function.update_of_ne hne, habsent]
  · rw [hstage, hworker]
    intro hmade j
    by_cases hj : j = i
    · rw [hj, Function.update_self, hstarted]
    · rw [Function.update_of_ne hj, h.made hmade j]
  · rw [hstage, hworker]
    intro hkeeps j
    by_cases hj : j = i
    · rw [hj, Function.update_self, hout hkeeps]
    · rw [Function.update_of_ne hj, h.loop hkeeps j]
  · rw [hstage, hclient]
    exact h.quiet
  · rw [hstage]
    exact hover

private theorem client_follows (h : s.Staged) (hready : s.stage = .ready)
    (hworker : s'.worker = s.worker) (hstage : s'.stage = s.stage)
    (hkeep : s'.keepalive = s.keepalive) : s'.Staged := by
  refine ⟨?_, ?_, ?_, ?_, fun hno ↦ absurd (hstage.trans hready) hno, ?_⟩
  · rw [hkeep, hstage, h.keepalive]
  · rw [hstage, hworker]
    exact h.unmade
  · rw [hstage, hworker]
    exact h.made
  · rw [hstage, hworker]
    exact h.loop
  · rw [hstage, hready]
    exact Bool.noConfusion

private theorem congr (h : s.Staged) (hworker : s'.worker = s.worker)
    (hclient : s'.client = s.client) (hstage : s'.stage = s.stage)
    (hkeep : s'.keepalive = s.keepalive) (halive : s'.alive = s.alive) : s'.Staged := by
  refine ⟨?_, ?_, ?_, ?_, ?_, ?_⟩
  · rw [hkeep, hstage, h.keepalive]
  · rw [hstage, hworker]
    exact h.unmade
  · rw [hstage, hworker]
    exact h.made
  · rw [hstage, hworker]
    exact h.loop
  · rw [hstage, hclient]
    exact h.quiet
  · rw [hstage, halive]
    exact h.ended

private theorem posted (h : s.Staged) (hp : Posted s s') : s'.Staged := by
  cases hp with
  | woken i asleep =>
    exact h.worker_follows rfl rfl rfl rfl (by rw [asleep]; nofun) rfl (fun _ ↦ rfl) h.ended
  | unheard awake => exact h.congr rfl rfl rfl rfl rfl

/-- A client that is somewhere in a call is there while the pool is in use. -/
theorem ready (h : s.Staged) (hbusy : (s.client k).isIdle = false) : s.stage = .ready := by
  by_contra hno
  rw [h.quiet hno k] at hbusy
  cases hbusy

private theorem signalled (h : s.Staged) (hs : Signalled s s') : s'.Staged := by
  cases hs with
  | woken k blocked =>
    have hready := h.ready (k := k) (by rw [ClientPc.eq_blocked blocked]; rfl)
    exact h.client_follows hready rfl rfl rfl
  | unheard awake => exact h

private theorem worker (h : s.Staged) (hm : WorkerMove s i s') : s'.Staged := by
  cases hm with
  | enter place | take place | sleep place | proceed place | turn place | stir place
  | count place | pullNone place | pullLast place | pullMore place | finish place
  | endMore place =>
    exact h.worker_follows rfl rfl rfl rfl (by rw [place]; nofun) rfl (fun _ ↦ rfl) h.ended
  | start place free =>
    refine h.worker_follows rfl rfl rfl rfl (by rw [place]; nofun) rfl (fun _ ↦ rfl) fun hover ↦ ?_
    have hmade : s.stage.isMade = true := by
      cases hstage : s.stage <;> rw [hstage] at hover <;> first | rfl | cases hover
    have hstarted := h.made hmade i
    rw [place] at hstarted
    cases hstarted
  | quit place stop =>
    refine h.worker_follows rfl rfl rfl rfl (by rw [place]; nofun) rfl (fun hkeeps ↦ ?_) h.ended
    rw [← h.keepalive, stop] at hkeeps
    cases hkeeps
  | post place hposted =>
    refine posted ?_ hposted
    exact h.worker_follows rfl rfl rfl rfl (by rw [place]; nofun) rfl (fun _ ↦ rfl) h.ended
  | endLast place free last hsignalled =>
    refine signalled ?_ hsignalled
    exact h.worker_follows rfl rfl rfl rfl (by rw [place]; nofun) rfl (fun _ ↦ rfl) h.ended
  | exit place free =>
    refine h.worker_follows rfl rfl rfl rfl (by rw [place]; nofun) rfl (fun hkeeps ↦ ?_)
      fun hover ↦ ?_
    · have hin := h.loop hkeeps i
      rw [place] at hin
      cases hin
    · change s.alive - 1 = 0
      rw [h.ended hover]
  | leave place =>
    refine h.worker_follows rfl rfl rfl rfl (by rw [place]; nofun) rfl (fun hkeeps ↦ ?_) h.ended
    have hin := h.loop hkeeps i
    rw [place] at hin
    cases hin

private theorem client (h : s.Staged) (hm : ClientMove s k s') : s'.Staged := by
  cases hm with
  | push place | lock place | seeEmpty place | seeJobs place | seeIdle place
  | seeWorking place | block place | leave place =>
    exact h.client_follows (h.ready (k := k) (by rw [place]; rfl)) rfl rfl rfl
  | stir place =>
    have hready := h.ready (k := k) (by rw [ClientPc.eq_blocked place]; rfl)
    exact h.client_follows hready rfl rfl rfl
  | add stage place | wait stage place => exact h.client_follows stage rfl rfl rfl
  | post place hposted =>
    refine posted ?_ hposted
    exact h.client_follows (h.ready (k := k) (by rw [place]; rfl)) rfl rfl rfl

/-- Clients are in calls only while the pool is in use. -/
theorem of_clientMove (h : s.Staged) (hm : ClientMove s k s') : s.stage = .ready := by
  cases hm with
  | add stage | wait stage => exact stage
  | stir place => exact h.ready (k := k) (by rw [ClientPc.eq_blocked place]; rfl)
  | push place | post place | lock place | seeEmpty place | seeJobs place | seeIdle place
  | seeWorking place | block place | leave place =>
    exact h.ready (k := k) (by rw [place]; rfl)

end Staged

/-- Locks, counters and stages agree with the places of the threads. -/
structure Wf (s : Pool n m W) : Prop where
  locked : s.Locked
  staged : s.Staged

namespace Wf

private theorem master (h : s.Wf) (hm : MasterMove s s') : s'.Wf := by
  cases hm with
  | @create made stage more =>
    have habsent := h.staged.unmade made stage ⟨made, more⟩ (Nat.le_refl _)
    refine ⟨h.locked.worker_stays rfl rfl rfl (by rw [habsent]; rfl), ?_⟩
    have hkeeps := h.staged.keepalive
    rw [stage] at hkeeps
    refine ⟨hkeeps, fun made' hmade' j hj ↦ ?_, nofun, fun _ j ↦ ?_, fun _ ↦ ?_, nofun⟩
    · cases hmade'
      have hne : j ≠ ⟨made, more⟩ := fun heq ↦ by
        rw [heq] at hj
        exact Nat.lt_irrefl _ hj
      change Function.update s.worker _ _ j = _
      rw [Function.update_of_ne hne]
      exact h.staged.unmade made stage j (Nat.le_of_succ_le hj)
    · change (Function.update s.worker _ _ j).isOut = false
      by_cases hj : j = ⟨made, more⟩
      · rw [hj, Function.update_self]
        rfl
      · rw [Function.update_of_ne hj]
        exact h.staged.loop (by rw [stage]; rfl) j
    · exact h.staged.quiet (by rw [stage]; nofun)
  | @miss made stage more =>
    refine ⟨h.locked.congr rfl rfl rfl, ?_⟩
    have hkeeps := h.staged.keepalive
    rw [stage] at hkeeps
    refine ⟨hkeeps, fun made' hmade' j hj ↦ ?_, nofun, fun _ ↦ ?_, fun _ ↦ ?_, nofun⟩
    · cases hmade'
      exact h.staged.unmade made stage j (Nat.le_of_succ_le hj)
    · exact h.staged.loop (by rw [stage]; rfl)
    · exact h.staged.quiet (by rw [stage]; nofun)
  | @spin made stage done =>
    refine ⟨h.locked.congr rfl rfl rfl, ?_⟩
    have hkeeps := h.staged.keepalive
    rw [stage] at hkeeps
    refine ⟨hkeeps, nofun, nofun, fun _ ↦ ?_, fun _ ↦ ?_, nofun⟩
    · exact h.staged.loop (by rw [stage]; rfl)
    · exact h.staged.quiet (by rw [stage]; nofun)
  | ready stage alive =>
    refine ⟨h.locked.congr rfl rfl rfl, ?_⟩
    have hkeeps := h.staged.keepalive
    rw [stage] at hkeeps
    have hall : ∀ i, (s.worker i).isAlive = true := by
      apply census_eq_card.mp
      rw [← h.locked.alive, alive, Fintype.card_fin]
    refine ⟨hkeeps, nofun, fun _ i ↦ ?_, fun _ ↦ ?_, fun hno ↦ absurd rfl hno, nofun⟩
    · have hi := hall i
      change (s.worker i).hasStarted = true
      cases hplace : s.worker i <;> rw [hplace] at hi <;> first | rfl | cases hi
    · exact h.staged.loop (by rw [stage]; rfl)
  | stop stage idle =>
    refine ⟨h.locked.congr rfl rfl rfl, ?_⟩
    refine ⟨rfl, nofun, fun _ ↦ ?_, nofun, fun _ k ↦ ClientPc.eq_idle (idle k), nofun⟩
    exact h.staged.made (by rw [stage]; rfl)
  | rouse stage alive =>
    have hkind (i : Fin n) : (s.bsemPostAll.worker i).kind = (s.worker i).kind ∧
        (s.bsemPostAll.worker i).hasStarted = (s.worker i).hasStarted := by
      change (ite _ _ _ : WorkerPc).kind = _ ∧ (ite _ _ _ : WorkerPc).hasStarted = _
      split
      · next hasleep =>
        rw [hasleep]
        exact ⟨rfl, rfl⟩
      · exact ⟨rfl, rfl⟩
    have hsame {β : Type} (p : (Bool × Bool) × Bool × Bool → β) :
        (fun i ↦ p (s.bsemPostAll.worker i).kind) = fun i ↦ p (s.worker i).kind :=
      funext fun i ↦ congrArg p (hkind i).1
    have hcensus (p : (Bool × Bool) × Bool × Bool → Bool) :
        census (fun pc : WorkerPc ↦ p pc.kind) s.bsemPostAll.worker =
          census (fun pc ↦ p pc.kind) s.worker := by
      unfold census
      simp only [(hkind _).1]
    constructor
    · refine ⟨?_, ?_, h.locked.alive.trans (hcensus fun c ↦ c.2.1).symm,
        h.locked.working.trans (hcensus fun c ↦ c.2.2).symm⟩
      · have hin : s.bsemPostAll.inCount = s.inCount :=
          congrArg (Sum.elim · _) (hsame fun c ↦ c.1.1)
        rw [hin]
        exact h.locked.count
      · have hin : s.bsemPostAll.inQueue = s.inQueue :=
          congrArg (Sum.elim · _) (hsame fun c ↦ c.1.2)
        rw [hin]
        exact h.locked.queue
    · refine ⟨h.staged.keepalive, ?_, fun hmade i ↦ ?_, ?_, h.staged.quiet, h.staged.ended⟩
      · intro made hmade
        rw [show s.bsemPostAll.stage = s.stage from rfl, stage] at hmade
        cases hmade
      · rw [(hkind i).2]
        exact h.staged.made hmade i
      · intro hkeeps
        rw [show s.bsemPostAll.stage = s.stage from rfl, stage] at hkeeps
        cases hkeeps
  | drained stage dead =>
    refine ⟨h.locked.congr rfl rfl rfl, ?_⟩
    have hkeeps := h.staged.keepalive
    rw [stage] at hkeeps
    refine ⟨hkeeps, nofun, fun _ ↦ ?_, nofun, fun _ ↦ ?_, fun _ ↦ dead⟩
    · exact h.staged.made (by rw [stage]; rfl)
    · exact h.staged.quiet (by rw [stage]; nofun)
  | dropNone stage | dropLast stage =>
    exact ⟨h.locked.congr rfl rfl rfl, h.staged.congr rfl rfl rfl rfl rfl⟩
  | dropMore stage free more pull rest hposted =>
    refine ⟨Locked.posted ?_ hposted, Staged.posted ?_ hposted⟩
    · exact h.locked.congr rfl rfl rfl
    · exact h.staged.congr rfl rfl rfl rfl rfl
  | destroy stage empty =>
    refine ⟨h.locked.congr rfl rfl rfl, ?_⟩
    have hkeeps := h.staged.keepalive
    rw [stage] at hkeeps
    refine ⟨hkeeps, nofun, fun _ ↦ ?_, nofun, fun _ ↦ ?_, fun _ ↦ ?_⟩
    · exact h.staged.made (by rw [stage]; rfl)
    · exact h.staged.quiet (by rw [stage]; nofun)
    · exact h.staged.ended (by rw [stage]; rfl)

/-- Every step keeps locks, counters and stages in agreement with the places. -/
theorem move (h : s.Wf) (hm : PoolMove s s') : s'.Wf := by
  cases hm with
  | worker i hm => exact ⟨h.locked.worker hm, h.staged.worker hm⟩
  | client k hm => exact ⟨h.locked.client hm, h.staged.client hm⟩
  | master hm => exact h.master hm

/-- The pool starts well formed. -/
theorem initial (n m : Nat) (W : Type) : (Pool.initial n m W).Wf := by
  have hnone : ∀ t, (Pool.initial n m W).inCount t = false ∧
      (Pool.initial n m W).inQueue t = false := by
    rintro (i | k) <;> exact ⟨rfl, rfl⟩
  refine ⟨⟨fun t ↦ ?_, fun t ↦ ?_, ?_, ?_⟩, rfl, fun _ _ _ _ ↦ rfl, nofun, fun _ _ ↦ rfl,
    fun _ _ ↦ rfl, nofun⟩
  · rw [(hnone t).1]
    exact ⟨nofun, nofun⟩
  · rw [(hnone t).2]
    exact ⟨nofun, nofun⟩
  · exact (census_eq_zero.mpr fun _ ↦ rfl).symm
  · exact (census_eq_zero.mpr fun _ ↦ rfl).symm

end Wf

/-- While the pool is in use, every worker is counted as alive. -/
theorem Wf.alive_ready (h : s.Wf) (hready : s.stage = .ready) : s.alive = n := by
  have hall : census WorkerPc.isAlive s.worker = Fintype.card (Fin n) := by
    refine census_eq_card.mpr fun i ↦ ?_
    have hstarted := h.staged.made (by rw [hready]; rfl) i
    have hin := h.staged.loop (by rw [hready]; rfl) i
    cases hplace : s.worker i <;> rw [hplace] at hstarted hin
    case absent | born => cases hstarted
    case exiting | leaving | gone => cases hin
    all_goals rfl
  rw [h.locked.alive, hall, Fintype.card_fin]

end Pool

open Pool

/-- In every order of the steps: two threads are never in sections of the same lock, and
`num_threads_alive` and `num_threads_working` are the numbers of the workers in the loop and of
those that look for a job or run one. When `thpool_init` has returned, and until `thpool_destroy` is
called, all threads of the pool are alive, and none is when its memory has been freed. -/
theorem locks_and_counters {acts : List (PoolAct n m W)} {s : Pool n m W}
    (hrun : Run poolStep Unguarded acts (Pool.initial n m W) s) :
    (∀ t u, s.inCount t = true → s.inCount u = true → t = u) ∧
      (∀ t u, s.inQueue t = true → s.inQueue u = true → t = u) ∧
      s.alive = census WorkerPc.isAlive s.worker ∧
      s.working = census WorkerPc.isWorking s.worker ∧
      (s.stage = .ready → s.alive = n) ∧ (s.stage = .destroyed → s.alive = 0) := by
  have h : s.Wf := hrun.poolInvariant (fun _ _ h hm ↦ h.move hm) (.initial n m W)
  exact ⟨fun _ _ ↦ h.locked.count.exclusive, fun _ _ ↦ h.locked.queue.exclusive, h.locked.alive,
    h.locked.working, h.alive_ready, fun hend ↦ h.staged.ended (by rw [hend]; rfl)⟩

-- Two jobs are added, and the first of two workers is about to post for the second job.
private def sampleSection : List (PoolAct 2 1 Nat) :=
  [.master true none, .master true none, .master true none, .worker 0 none none,
    .worker 1 none none, .master true none, .addWork 0 7 true, .client 0 none, .client 0 none,
    .addWork 0 8 true, .client 0 none, .client 0 none, .worker 0 none none, .worker 0 none none,
    .worker 0 none none, .worker 0 none none, .worker 0 none none]

/-- One of two workers is in the section of the queue, and the other one is not. -/
theorem locks_and_counters_sample : ∃ s : Pool 2 1 Nat, s.inQueue (.inl 0) = true ∧
    (∀ t, s.inQueue t = true → t = .inl 0) ∧ s.alive = 2 ∧
      s.working = census WorkerPc.isWorking s.worker := by
  have h : (follow poolStep Unguarded sampleSection (Pool.initial 2 1 Nat)).any (fun s ↦
      decide (s.stage = .ready) && s.inQueue (.inl 0)) = true := by decide
  obtain ⟨s, hrun, hs⟩ := Run.exists_of_follow h
  obtain ⟨hready, hin⟩ := Bool.and_eq_true_iff.mp hs
  obtain ⟨_, hqueue, _, hworking, halive, _⟩ := locks_and_counters hrun
  exact ⟨s, hin, fun t ht ↦ hqueue t (.inl 0) ht hin, halive (of_decide_eq_true hready), hworking⟩

end Q2Admin
