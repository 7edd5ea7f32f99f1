import Q2Admin.Pool.Waiting
import Q2Admin.Pool.Ending

/-!
# The pool at rest

Library `Q2Admin.Pool`. While a pool is in use, its threads cannot go on forever without new calls,
and when none of them can go on, nothing has been forgotten: no post of the semaphore has been
lost, all jobs that have been added have been run, and every worker sleeps. A call of `thpool_wait`
has returned by then if no second one was made meanwhile; `pthread_cond_signal` wakes one thread
only, and the others that wait may sleep on.
-/

namespace Q2Admin

variable {n m : Nat} {W : Type}

/-- The worker will look into the queue, or posts for those that do. -/
def WorkerPc.isComing : WorkerPc → Bool
  | .token | .counting | .pulling | .posting _ => true
  | _ => false

/-- The client has pushed its job, and is about to post for it. -/
def ClientPc.isPushed : ClientPc W → Bool
  | .pushed => true
  | _ => false

namespace Pool

variable {s s' : Pool n m W} {i : Fin n} {k : Fin m}

/-- None of the threads can take a step by itself. -/
def AtRest (s : Pool n m W) : Prop :=
  (∀ i wakes signals, poolStep (.worker i wakes signals) s = none) ∧
    ∀ k wakes, poolStep (.client k wakes) s = none

private theorem exists_bsemPost (s : Pool n m W) : ∃ wakes s', s.bsemPost wakes = .next s' := by
  by_cases hasleep : ∃ i, s.worker i = .asleep
  · obtain ⟨i, hi⟩ := hasleep
    exact ⟨some i, _, if_pos hi⟩
  · exact ⟨none, _, if_pos fun i hi ↦ hasleep ⟨i, hi⟩⟩

private theorem exists_signalIdle (s : Pool n m W) :
    ∃ signals s', s.signalIdle signals = .next s' := by
  by_cases hblocked : ∃ k, (s.client k).isBlocked = true
  · obtain ⟨k, hk⟩ := hblocked
    exact ⟨some k, _, if_pos hk⟩
  · refine ⟨none, _, if_pos fun k ↦ ?_⟩
    exact Bool.eq_false_of_not_eq_true fun hk ↦ hblocked ⟨k, hk⟩

namespace AtRest

private theorem worker (h : s.AtRest) (hs : s.Sound) (hready : s.stage = .ready) (i : Fin n) :
    match s.worker i with
    | .absent | .asleep | .gone => True
    | .born | .counting | .ending | .exiting => s.countLock ≠ none
    | .pulling => s.queueLock ≠ none
    | _ => False := by
  obtain ⟨l, hl⟩ := hs.tracked
  have hstuck (wakes : Option (Fin n)) (signals : Option (Fin m)) (s' : Pool n m W) :
      s.threadDo i wakes signals ≠ .next s' := fun hnext ↦ by
    have hact : s.act (.worker i wakes signals) = .next s' :=
      (if_neg fun hend ↦ by rw [hready] at hend; cases hend.1).trans hnext
    have hnone := h.1 i wakes signals
    unfold poolStep at hnone
    rw [hact] at hnone
    cases hnone
  cases hplace : s.worker i
  case absent | asleep | gone => trivial
  case top | token | leaving => exact hstuck none none _ (by rw [threadDo, hplace])
  case waiting =>
    cases hpost : s.hasJobs with
    | true => exact hstuck none none _ (by rw [threadDo, hplace]; exact if_pos hpost)
    | false =>
      refine hstuck none none (s.workerTo i .asleep) ?_
      rw [threadDo, hplace]
      exact if_neg (Bool.not_eq_true _ ▸ hpost)
  case born | counting | exiting =>
    exact fun hfree ↦ hstuck none none _ (by rw [threadDo, hplace]; exact if_pos hfree)
  case pulling =>
    intro hfree
    cases hpull : jobqueuePull s.queue s.jobs with
    | none => exact hs.pull_ne_none hpull
    | some pulled =>
      obtain ⟨_ | job, queue⟩ := pulled
      · exact hstuck none none _ (by rw [threadDo, hplace]; dsimp only; rw [if_pos hfree, hpull])
      · by_cases hlen : s.queue.len ≤ 1
        · exact hstuck none none _
            (by rw [threadDo, hplace]; dsimp only; rw [if_pos hfree, hpull]; exact if_pos hlen)
        · exact hstuck none none _
            (by rw [threadDo, hplace]; dsimp only; rw [if_pos hfree, hpull]; exact if_neg hlen)
  case posting job =>
    obtain ⟨wakes, s', hpost⟩ :=
      exists_bsemPost ({ s with queueLock := none }.workerTo i (.running job))
    exact hstuck wakes none s' (by rw [threadDo, hplace]; exact hpost)
  case running p =>
    cases hcell : s.jobs p with
    | none => exact (hl.hand i p (by rw [hplace]; rfl)).2.2 hcell
    | some job =>
      exact hstuck none none _ (by rw [threadDo, hplace]; dsimp only; rw [hcell])
  case ending =>
    intro hfree
    by_cases hlast : s.working - 1 = 0
    · obtain ⟨signals, s', hsignal⟩ :=
        exists_signalIdle ({ s with working := s.working - 1 }.workerTo i .top)
      refine hstuck none signals s' ?_
      rw [threadDo, hplace]
      dsimp only
      rw [if_pos hfree]
      exact (if_pos hlast).trans hsignal
    · exact hstuck none none _
        (by rw [threadDo, hplace]; dsimp only; rw [if_pos hfree]; exact if_neg hlast)

private theorem client (h : s.AtRest) (hs : s.Sound) (k : Fin m) :
    match s.client k with
    | .idle | .blocked => True
    | .adding _ _ => s.queueLock ≠ none
    | .locking => s.countLock ≠ none
    | _ => False := by
  obtain ⟨l, hl⟩ := hs.tracked
  have hstuck (wakes : Option (Fin n)) (s' : Pool n m W) : s.clientDo k wakes ≠ .next s' :=
    fun hnext ↦ by
      have hact : s.act (.client k wakes) = .next s' := hnext
      have hnone := h.2 k wakes
      unfold poolStep at hnone
      rw [hact] at hnone
      cases hnone
  cases hplace : s.client k
  case idle | blocked => trivial
  case seeingLen | seeingWorking | blocking | satisfied =>
    exact hstuck none _ (by rw [clientDo, hplace])
  case locking => exact fun hfree ↦ hstuck none _ (by rw [clientDo, hplace]; exact if_pos hfree)
  case pushed =>
    obtain ⟨wakes, s', hpost⟩ := exists_bsemPost ({ s with queueLock := none }.clientTo k .idle)
    exact hstuck wakes s' (by rw [clientDo, hplace]; exact hpost)
  case adding p work =>
    intro hfree
    obtain ⟨q, jobs, hpush, _⟩ := hs.exists_push hplace
    exact hstuck none _ (by rw [clientDo, hplace]; dsimp only; rw [if_pos hfree, hpush])

-- A lock is not held at rest: who holds it can go on.
private theorem free (h : s.AtRest) (hs : s.Sound) (hready : s.stage = .ready) :
    s.countLock = none ∧ s.queueLock = none := by
  constructor
  · cases hlock : s.countLock with
    | none => rfl
    | some t =>
      have hin := (hs.locked.count t).mp hlock
      rcases t with i | k
      · have hrest := h.worker hs hready i
        change (s.worker i).holdsCount = true at hin
        cases hplace : s.worker i <;> rw [hplace] at hin hrest <;>
          first | exact hrest.elim | cases hin
      · have hrest := h.client hs k
        change (s.client k).holdsCount = true at hin
        cases hplace : s.client k <;> rw [hplace] at hin hrest <;>
          first | exact hrest.elim | cases hin
  · cases hlock : s.queueLock with
    | none => rfl
    | some t =>
      have hin := (hs.locked.queue t).mp hlock
      rcases t with i | k
      · have hrest := h.worker hs hready i
        change (s.worker i).holdsQueue = true at hin
        cases hplace : s.worker i <;> rw [hplace] at hin hrest <;>
          first | exact hrest.elim | cases hin
      · have hrest := h.client hs k
        change (s.client k).holdsQueue = true at hin
        cases hplace : s.client k <;> rw [hplace] at hin hrest <;>
          first | exact hrest.elim | cases hin

/-- While the pool is in use, a worker at rest sleeps. -/
theorem asleep (h : s.AtRest) (hs : s.Sound) (hready : s.stage = .ready) (i : Fin n) :
    s.worker i = .asleep := by
  obtain ⟨hcount, hqueue⟩ := h.free hs hready
  have hrest := h.worker hs hready i
  have hstarted := hs.staged.made (by rw [hready]; rfl) i
  have hin := hs.staged.loop (by rw [hready]; rfl) i
  cases hplace : s.worker i <;> rw [hplace] at hrest hstarted hin
  case born | counting | ending | exiting => exact absurd hcount hrest
  case pulling => exact absurd hqueue hrest
  case absent => cases hstarted
  case gone => cases hin
  all_goals exact hrest.elim

/-- A client at rest is in no call or blocked in `thpool_wait`. -/
theorem idle_or_blocked (h : s.AtRest) (hs : s.Sound) (hready : s.stage = .ready) (k : Fin m) :
    s.client k = .idle ∨ s.client k = .blocked := by
  obtain ⟨hcount, hqueue⟩ := h.free hs hready
  have hrest := h.client hs k
  cases hplace : s.client k <;> rw [hplace] at hrest
  case idle => exact .inl rfl
  case blocked => exact .inr rfl
  case adding => exact absurd hqueue hrest
  case locking => exact absurd hcount hrest
  all_goals exact hrest.elim

end AtRest

/-- Somebody will look into the queue: the semaphore is posted, or will be, or has been taken by a
worker that has not looked yet. -/
def Offered (s : Pool n m W) : Prop :=
  s.hasJobs = true ∨ (∃ i, (s.worker i).isComing = true) ∨ ∃ k, (s.client k).isPushed = true

/-- The posts of the semaphore reach those that they are meant for. -/
structure Heard (s : Pool n m W) : Prop where
  awake : s.hasJobs = true → ∃ i, s.worker i ≠ .asleep
  offered : s.keepalive = true → s.queue.len ≠ 0 → s.Offered

namespace Heard

private theorem worker_follows (h : s.Heard) {pc : WorkerPc}
    (hworker : s'.worker = Function.update s.worker i pc) (hclient : s'.client = s.client)
    (hposted : s'.hasJobs = s.hasJobs ∧ (s.hasJobs = true → pc ≠ .asleep) ∨
      s'.hasJobs = false ∧ pc.isComing = true)
    (hqueue : s'.keepalive = true → s'.queue.len ≠ 0 → s.keepalive = true ∧ s.queue.len ≠ 0 ∧
      ((s.worker i).isComing = true → pc.isComing = true)) : s'.Heard := by
  refine ⟨fun hjobs ↦ ?_, fun hkeep hlen ↦ ?_⟩
  · rcases hposted with ⟨hsame, hpc⟩ | ⟨hnone, _⟩
    · refine ⟨i, ?_⟩
      rw [hworker, Function.update_self]
      exact hpc (hsame.symm.trans hjobs)
    · rw [hnone] at hjobs
      cases hjobs
  · obtain ⟨hkeep, hlen, hcoming⟩ := hqueue hkeep hlen
    have hself : s'.worker i = pc := by rw [hworker, Function.update_self]
    rcases hposted with ⟨hsame, _⟩ | ⟨_, hpc⟩
    · rcases h.offered hkeep hlen with hjobs | ⟨j, hj⟩ | ⟨k, hk⟩
      · exact .inl (hsame.trans hjobs)
      · by_cases hne : j = i
        · exact .inr (.inl ⟨i, hself ▸ hcoming (hne ▸ hj)⟩)
        · refine .inr (.inl ⟨j, ?_⟩)
          rw [hworker, Function.update_of_ne hne]
          exact hj
      · exact .inr (.inr ⟨k, hclient ▸ hk⟩)
    · exact .inr (.inl ⟨i, hself ▸ hpc⟩)

private theorem posted (hn : 0 < n) (hp : Posted s s') : s'.Heard := by
  cases hp with
  | woken i asleep =>
    refine ⟨fun _ ↦ ⟨i, ?_⟩, fun _ _ ↦ .inl rfl⟩
    change Function.update s.worker i _ i ≠ _
    rw [Function.update_self]
    nofun
  | unheard awake => exact ⟨fun _ ↦ ⟨⟨0, hn⟩, awake _⟩, fun _ _ ↦ .inl rfl⟩

private theorem client_follows (h : s.Heard) {pc : ClientPc W}
    (hworker : s'.worker = s.worker) (hclient : s'.client = Function.update s.client k pc)
    (hplace : (s.client k).isPushed = false) (hposted : s'.hasJobs = s.hasJobs)
    (hqueue : s'.keepalive = s.keepalive ∧ s'.queue.len = s.queue.len) : s'.Heard := by
  refine ⟨?_, fun hkeep hlen ↦ ?_⟩
  · rw [hposted, hworker]
    exact h.awake
  · rw [hqueue.1] at hkeep
    rw [hqueue.2] at hlen
    rcases h.offered hkeep hlen with hjobs | ⟨i, hi⟩ | ⟨k', hk'⟩
    · exact .inl (hposted.trans hjobs)
    · exact .inr (.inl ⟨i, hworker ▸ hi⟩)
    · have hne : k' ≠ k := by
        rintro rfl
        rw [hplace] at hk'
        cases hk'
      refine .inr (.inr ⟨k', ?_⟩)
      rw [hclient, Function.update_of_ne hne]
      exact hk'

private theorem worker (h : s.Heard) (hs : s.Sound) (hn : 0 < n) (hm : WorkerMove s i s') :
    s'.Heard := by
  cases hm with
  | start place | enter place | quit place | stir place | finish place | endMore place
  | exit place | leave place =>
    exact h.worker_follows rfl rfl (.inl ⟨rfl, fun _ ↦ nofun⟩) fun hkeep hlen ↦
      ⟨hkeep, hlen, by rw [place]; nofun⟩
  | take place posted =>
    exact h.worker_follows rfl rfl (.inr ⟨rfl, rfl⟩) fun hkeep hlen ↦ ⟨hkeep, hlen, fun _ ↦ rfl⟩
  | sleep place unposted =>
    refine h.worker_follows rfl rfl (.inl ⟨rfl, fun hjobs ↦ ?_⟩) fun hkeep hlen ↦
      ⟨hkeep, hlen, by rw [place]; nofun⟩
    rw [unposted] at hjobs
    cases hjobs
  | proceed | count =>
    exact h.worker_follows rfl rfl (.inl ⟨rfl, fun _ ↦ nofun⟩) fun hkeep hlen ↦
      ⟨hkeep, hlen, fun _ ↦ rfl⟩
  | turn place stop =>
    refine h.worker_follows rfl rfl (.inl ⟨rfl, fun _ ↦ nofun⟩) fun hkeep _ ↦ ?_
    exact absurd (stop.symm.trans hkeep) Bool.false_ne_true
  | pullNone place free hpull =>
    obtain ⟨l, hl⟩ := hs.tracked
    obtain ⟨hhead, hholds⟩ := hl.pulls hpull
    refine h.worker_follows rfl rfl (.inl ⟨rfl, fun _ ↦ nofun⟩) fun _ hlen ↦ absurd ?_ hlen
    rw [List.head?_eq_none_iff.mp hhead.symm] at hholds
    exact hholds.len
  | pullLast place free hpull last =>
    obtain ⟨l, hl⟩ := hs.tracked
    obtain ⟨hhead, hholds⟩ := hl.pulls hpull
    refine h.worker_follows rfl rfl (.inl ⟨rfl, fun _ ↦ nofun⟩) fun _ hlen ↦ absurd ?_ hlen
    have hall := hl.holds.len
    have hrest := hholds.len
    rw [List.length_tail] at hrest
    exact hrest.trans (by omega)
  | pullMore place free hpull more =>
    refine h.worker_follows rfl rfl (.inl ⟨rfl, fun _ ↦ nofun⟩) fun hkeep _ ↦
      ⟨hkeep, fun hempty ↦ more (by rw [hempty]; exact Nat.zero_le 1), fun _ ↦ rfl⟩
  | post place hposted => exact posted hn hposted
  | endLast place free last signalled =>
    have hended : Heard ({ s with working := s.working - 1 }.workerTo i .top) :=
      h.worker_follows rfl rfl (.inl ⟨rfl, fun _ ↦ nofun⟩) fun hkeep hlen ↦
        ⟨hkeep, hlen, by rw [place]; nofun⟩
    cases signalled with
    | woken k blocked =>
      exact hended.client_follows rfl rfl (by rw [ClientPc.eq_blocked blocked]; rfl) rfl ⟨rfl, rfl⟩
    | unheard => exact hended

private theorem client (h : s.Heard) (hn : 0 < n) (hm : ClientMove s k s') : s'.Heard := by
  cases hm with
  | add stage place | wait stage place | lock place | seeEmpty place | seeJobs place
  | seeIdle place | seeWorking place | block place | leave place =>
    exact h.client_follows rfl rfl (by rw [place]; rfl) rfl ⟨rfl, rfl⟩
  | stir place =>
    exact h.client_follows rfl rfl (by rw [ClientPc.eq_blocked place]; rfl) rfl ⟨rfl, rfl⟩
  | push place free push =>
    have hself : Function.update s.client k .pushed k = .pushed := Function.update_self _ _ _
    exact ⟨h.awake, fun _ _ ↦ .inr (.inr ⟨k, congrArg ClientPc.isPushed hself⟩)⟩
  | post place hposted => exact posted hn hposted

private theorem master (h : s.Heard) (hs : s.Sound) (hn : 0 < n) (hm : MasterMove s s') :
    s'.Heard := by
  have hstop (hstage : s.stage.keeps = false) : ¬ s.keepalive = true := by
    rw [hs.staged.keepalive, hstage]
    exact Bool.false_ne_true
  cases hm with
  | @create made stage more =>
    have habsent := hs.staged.unmade made stage ⟨made, more⟩ (Nat.le_refl _)
    exact h.worker_follows rfl rfl (.inl ⟨rfl, fun _ ↦ nofun⟩) fun hkeep hlen ↦
      ⟨hkeep, hlen, by rw [habsent]; nofun⟩
  | miss | spin | ready => exact ⟨h.awake, h.offered⟩
  | stop => exact ⟨h.awake, nofun⟩
  | rouse =>
    refine ⟨fun _ ↦ ⟨⟨0, hn⟩, ?_⟩, fun _ _ ↦ .inl rfl⟩
    change ite _ _ _ ≠ _
    split
    · nofun
    · next hne => exact hne
  | dropMore stage free more pull rest hposted => exact posted hn hposted
  | drained stage | dropNone stage | dropLast stage =>
    exact ⟨h.awake, fun hkeep ↦ absurd hkeep (hstop (by rw [stage]; rfl))⟩
  | destroy stage => exact ⟨nofun, fun hkeep ↦ absurd hkeep (hstop (by rw [stage]; rfl))⟩

end Heard

/-- No post of the semaphore is lost. -/
theorem heard_of_run {G : PoolAct n m W → Pool n m W → Prop} {acts : List (PoolAct n m W)}
    (hrun : Run poolStep G acts (Pool.initial n m W) s) (hn : 0 < n) : s.Heard := by
  have hinv := hrun.poolInvariant (I := fun s ↦ s.Sound ∧ s.Heard)
    (fun s s' h hm ↦ ⟨h.1.move hm, ?_⟩) ⟨.initial n m W, nofun, fun _ hlen ↦ absurd rfl hlen⟩
  · exact hinv.2
  · cases hm with
    | worker i hm => exact h.2.worker h.1 hn hm
    | client k hm => exact h.2.client hn hm
    | master hm => exact h.2.master h.1 hn hm

end Pool

open Pool

/-- In every order of the steps of a pool that is in use and has threads: when none of its threads
can go on by itself, every worker sleeps, no job waits or is in hand, all jobs that have been added
have been run, and a client that is still in a call is blocked in `thpool_wait`. -/
theorem pool_at_rest {acts : List (PoolAct n m W)} {s : Pool n m W}
    (hrun : Run poolStep Unguarded acts (Pool.initial n m W) s) (hn : 0 < n)
    (hready : s.stage = .ready) (hrest : s.AtRest) :
    (∀ i, s.worker i = .asleep) ∧ s.hasJobs = false ∧ s.queue.len = 0 ∧ s.working = 0 ∧
      (∀ p ∈ addedJobs s.trace, p ∈ finishedJobs s.trace) ∧
      ∀ k, s.client k = .idle ∨ s.client k = .blocked := by
  have hs := sound_of_run hrun
  have hasleep := hrest.asleep hs hready
  have hclient := hrest.idle_or_blocked hs hready
  have hheard := heard_of_run hrun hn
  have hposted : s.hasJobs = false := by
    refine Bool.eq_false_of_not_eq_true fun hjobs ↦ ?_
    obtain ⟨i, hi⟩ := hheard.awake hjobs
    exact hi (hasleep i)
  have hworking : s.working = 0 := by
    rw [hs.locked.working, census_eq_zero]
    exact fun i ↦ congrArg WorkerPc.isWorking (hasleep i)
  have hkeep : s.keepalive = true := by rw [hs.staged.keepalive, hready]; rfl
  have hempty : s.queue.len = 0 := by
    by_contra hlen
    rcases hheard.offered hkeep hlen with hjobs | ⟨i, hi⟩ | ⟨k, hk⟩
    · rw [hposted] at hjobs
      cases hjobs
    · rw [hasleep i] at hi
      cases hi
    · rcases hclient k with heq | heq <;> rw [heq] at hk <;> cases hk
  refine ⟨hasleep, hposted, hempty, hworking, fun p hp ↦ ?_, hclient⟩
  obtain ⟨l, hl⟩ := hs.tracked
  obtain rfl := List.length_eq_zero_iff.mp (hl.holds.len.symm.trans hempty)
  rw [hl.order, List.append_nil] at hp
  refine finished_of_idle hs (fun p hdropped ↦ ?_) hworking hp
  have hover := dropped_over hrun hdropped
  rw [hready] at hover
  cases hover

/-- In no state in which a step is taken, two clients are blocked in `thpool_wait`. -/
def OneBlocked (_ : PoolAct n m W) (s : Pool n m W) : Prop :=
  ∀ k k', (s.client k).isBlocked = true → (s.client k').isBlocked = true → k = k'

instance (a : PoolAct n m W) (s : Pool n m W) : Decidable (OneBlocked a s) :=
  inferInstanceAs (Decidable (∀ k k', _ → _ → k = k'))

namespace Pool

variable {s s' : Pool n m W} {i : Fin n} {k : Fin m}

/-- A client that blocks has something to wait for. -/
def Due (s : Pool n m W) : Prop :=
  ∀ k, s.client k = .blocking ∨ s.client k = .blocked → s.queue.len ≠ 0 ∨ s.working ≠ 0

namespace Due

private theorem posted (h : s.Due) (hp : Posted s s') : s'.Due := by cases hp <;> exact h

private theorem client_follows (h : s.Due) {pc : ClientPc W}
    (hclient : s'.client = Function.update s.client k pc)
    (hsame : s'.queue.len = s.queue.len ∧ s'.working = s.working)
    (hpc : pc = .blocking ∨ pc = .blocked → s.queue.len ≠ 0 ∨ s.working ≠ 0) : s'.Due := by
  intro k' hk'
  rw [hsame.1, hsame.2]
  rw [hclient] at hk'
  by_cases hne : k' = k
  · rw [hne, Function.update_self] at hk'
    exact hpc hk'
  · rw [Function.update_of_ne hne] at hk'
    exact h k' hk'

private theorem worker (h : s.Due) (hs : s.Sound) (hone : ∀ k k', (s.client k).isBlocked = true →
    (s.client k').isBlocked = true → k = k') (hm : WorkerMove s i s') : s'.Due := by
  have hcounted (hworking : (s.worker i).isWorking = true) : s.working ≠ 0 := by
    rw [hs.locked.working]
    exact Nat.pos_iff_ne_zero.mp (census_pos hworking)
  cases hm with
  | count => exact fun _ _ ↦ .inr (Nat.succ_ne_zero _)
  | pullNone place | pullLast place | pullMore place =>
    exact fun _ _ ↦ .inr (hcounted (by rw [place]; rfl))
  | post place hposted => exact posted (s := { s with queueLock := none }.workerTo i _) h hposted
  | endMore place free more => exact fun _ _ ↦ .inr more
  | endLast place free last signalled =>
    -- The lock is free, so nobody is about to block, and the signal reaches who is blocked.
    have hfree : Guards none s.inCount := free ▸ hs.locked.count
    have hoff {k : Fin m} : s.client k ≠ .blocking := fun hk ↦ by
      have hin : s.inCount (.inr k) = true := congrArg ClientPc.holdsCount hk
      rw [hfree.outside] at hin
      cases hin
    intro k hk
    cases signalled with
    | woken k' blocked =>
      change Function.update s.client k' _ k = _ ∨ Function.update s.client k' _ k = _ at hk
      by_cases hne : k = k'
      · rw [hne, Function.update_self] at hk
        rcases hk with heq | heq <;> cases heq
      · rw [Function.update_of_ne hne] at hk
        rcases hk with heq | heq
        · exact absurd heq hoff
        · exact absurd (hone k k' (by rw [heq]; rfl) blocked) hne
    | unheard awake =>
      rcases hk with heq | heq
      · exact absurd heq hoff
      · exact absurd (awake k) (by rw [heq]; nofun)
  | _ => exact h

private theorem client (h : s.Due) (hs : s.Sound) (hm : ClientMove s k s') : s'.Due := by
  cases hm with
  | add | wait | lock | seeEmpty | seeIdle | leave | stir =>
    exact h.client_follows rfl ⟨rfl, rfl⟩ (by rintro (heq | heq) <;> cases heq)
  | seeJobs place jobs => exact h.client_follows rfl ⟨rfl, rfl⟩ fun _ ↦ .inl jobs
  | seeWorking place working => exact h.client_follows rfl ⟨rfl, rfl⟩ fun _ ↦ .inr working
  | block place => exact h.client_follows rfl ⟨rfl, rfl⟩ fun _ ↦ h k (.inl place)
  | post place hposted =>
    refine posted ?_ hposted
    exact h.client_follows rfl ⟨rfl, rfl⟩ (by rintro (heq | heq) <;> cases heq)
  | push place free push =>
    obtain ⟨queue, jobs, hpush, hlen⟩ := hs.exists_push place
    rw [push] at hpush
    cases hpush
    exact fun _ _ ↦ .inl fun hempty ↦ Nat.succ_ne_zero _ (hlen.symm.trans hempty)

private theorem master (hs : s.Sound) (hm : MasterMove s s') : s'.Due := by
  have hidle : (∀ k, s.client k = .idle) ∧ s'.client = s.client := by
    cases hm with
    | stop stage idle => exact ⟨fun k ↦ ClientPc.eq_idle (idle k), rfl⟩
    | dropMore stage free more pull rest hposted =>
      exact ⟨hs.staged.quiet (by rw [stage]; nofun), (Posted.client hposted).trans rfl⟩
    | create stage | miss stage | spin stage | ready stage | rouse stage | drained stage
    | dropNone stage | dropLast stage | destroy stage =>
      exact ⟨hs.staged.quiet (by rw [stage]; nofun), rfl⟩
  intro k hk
  rw [hidle.2, hidle.1 k] at hk
  rcases hk with heq | heq <;> cases heq

end Due

/-- A client that blocks is woken if it is the only one. -/
theorem due_of_run {acts : List (PoolAct n m W)}
    (hrun : Run poolStep OneBlocked acts (Pool.initial n m W) s) : s.Due := by
  have hinv := hrun.invariant (I := fun s ↦ s.Sound ∧ s.Due) (fun a s s' hone hs h ↦ ?_)
    ⟨.initial n m W, fun k hk ↦ by rcases hk with heq | heq <;> cases heq⟩
  · exact hinv.2
  · rcases poolMove_of_step hs with hm | rfl
    · refine ⟨h.1.move hm, ?_⟩
      cases hm with
      | worker i hm => exact h.2.worker h.1 hone hm
      | client k hm => exact h.2.client h.1 hm
      | master hm => exact Due.master h.1 hm
    · exact h

end Pool

/-- At rest, no client is in `thpool_wait` if it has been the only one whenever it was blocked. -/
theorem idle_at_rest {acts : List (PoolAct n m W)} {s : Pool n m W}
    (hrun : Run poolStep OneBlocked acts (Pool.initial n m W) s) (hempty : s.queue.len = 0)
    (hworking : s.working = 0) {k : Fin m} (hk : s.client k = .idle ∨ s.client k = .blocked) :
    s.client k = .idle := by
  rcases hk with hidle | hblocked
  · exact hidle
  · rcases due_of_run hrun k (.inr hblocked) with hlen | hwork
    · exact absurd hempty hlen
    · exact absurd hworking hwork

end Q2Admin
