import Mathlib.Data.Fintype.Option
import Q2Admin.Pool.Rest

/-!
# The work of a pool gets done

Library `Q2Admin.Pool`. Without new calls and without wake-ups that nobody has signalled, the
threads of a pool in use take a bounded number of steps in whatever order they run. `Pool.potential`
is a bound; every step takes something off it. What posts and signals set going is paid for by the
job or the place that they come from.
-/

namespace Q2Admin

variable {n m : Nat} {W : Type}

/-- What a worker may still do while the pool is in use, with what it may wake. -/
def WorkerPc.potential : WorkerPc → Nat
  | .born => 3
  | .top => 2
  | .waiting => 1
  | .token => 11
  | .counting => 10
  | .pulling => 9
  | .posting _ => 21
  | .running _ => 8
  | .ending => 7
  | .absent | .asleep | .exiting | .leaving | .gone => 0

/-- What a client may still do, with what it may wake. -/
def ClientPc.potential : ClientPc W → Nat
  | .adding _ _ => 27
  | .pushed => 13
  | .locking => 4
  | .seeingLen => 3
  | .seeingWorking => 2
  | .blocking | .satisfied => 1
  | .idle | .blocked => 0

/-- The threads of the pool go on by themselves: no calls, no step of the thread that destroys
the pool, and no wake-up without a signal. -/
def ThreadStep (a : PoolAct n m W) (_ : Pool n m W) : Prop :=
  match a with
  | .worker _ _ _ | .client _ _ => True
  | _ => False

instance : (a : PoolAct n m W) → (s : Pool n m W) → Decidable (ThreadStep a s)
  | .worker _ _ _, _ | .client _ _, _ => .isTrue trivial
  | .master _ _, _ | .addWork _ _ _, _ | .wait _, _ | .stir _, _ => .isFalse id

namespace Pool

variable {s s' : Pool n m W} {i : Fin n} {k : Fin m}

instance (s : Pool n m W) : Decidable s.AtRest :=
  decidable_of_iff
    ((∀ i wakes signals, (poolStep (.worker i wakes signals) s).isNone = true) ∧
      ∀ k wakes, (poolStep (.client k wakes) s).isNone = true)
    (by simp only [AtRest, Option.isNone_iff_eq_none])

/-- A bound of the number of steps that the threads can take by themselves. -/
def potential (s : Pool n m W) : Nat :=
  13 * s.queue.len + 11 * s.hasJobs.toNat + budget WorkerPc.potential s.worker +
    budget ClientPc.potential s.client

-- A worker moves: `d` is what the pool loses at least, `e` what it may win.
private theorem worker_pays {pc : WorkerPc} (d e : Nat)
    (hworker : s'.worker = Function.update s.worker i pc) (hclient : s'.client = s.client)
    (hcost : pc.potential + 13 * s'.queue.len + 11 * s'.hasJobs.toNat + d ≤
      (s.worker i).potential + 13 * s.queue.len + 11 * s.hasJobs.toNat + e) :
    s'.potential + d ≤ s.potential + e := by
  have hbudget := budget_update WorkerPc.potential s.worker i pc
  unfold potential
  rw [hworker, hclient]
  omega

private theorem worker_goes {pc : WorkerPc} (d : Nat)
    (hworker : s'.worker = Function.update s.worker i pc) (hclient : s'.client = s.client)
    (hqueue : s'.queue = s.queue ∧ s'.hasJobs = s.hasJobs)
    (hpc : pc.potential + d ≤ (s.worker i).potential) : s'.potential + d ≤ s.potential := by
  refine worker_pays d 0 hworker hclient ?_
  rw [hqueue.1, hqueue.2]
  omega

private theorem client_pays {pc : ClientPc W} (d e : Nat) (hworker : s'.worker = s.worker)
    (hclient : s'.client = Function.update s.client k pc) (hjobs : s'.hasJobs = s.hasJobs)
    (hcost : pc.potential + 13 * s'.queue.len + d ≤
      (s.client k).potential + 13 * s.queue.len + e) :
    s'.potential + d ≤ s.potential + e := by
  have hbudget := budget_update ClientPc.potential s.client k pc
  unfold potential
  rw [hworker, hclient, hjobs]
  omega

private theorem client_goes {pc : ClientPc W} (d : Nat) (hworker : s'.worker = s.worker)
    (hclient : s'.client = Function.update s.client k pc)
    (hqueue : s'.queue = s.queue ∧ s'.hasJobs = s.hasJobs)
    (hpc : pc.potential + d ≤ (s.client k).potential) : s'.potential + d ≤ s.potential := by
  refine client_pays d 0 hworker hclient hqueue.2 ?_
  rw [hqueue.1]
  omega

private theorem potential_posted (h : Posted s s') : s'.potential ≤ s.potential + 12 := by
  cases h with
  | woken i asleep =>
    refine worker_pays (i := i) 0 12 rfl rfl ?_
    rw [asleep]
    change 1 + 13 * s.queue.len + 11 * 1 + 0 ≤ 0 + 13 * s.queue.len + 11 * s.hasJobs.toNat + 12
    omega
  | unheard awake =>
    change 13 * s.queue.len + 11 * 1 + budget _ s.worker + budget _ s.client ≤ _
    unfold potential
    omega

private theorem potential_signalled (h : Signalled s s') : s'.potential ≤ s.potential + 4 := by
  cases h with
  | woken k blocked =>
    refine client_pays (k := k) 0 4 rfl rfl rfl ?_
    rw [ClientPc.eq_blocked blocked]
    change 4 + 13 * s.queue.len + 0 ≤ 0 + 13 * s.queue.len + 4
    omega
  | unheard awake => omega

private theorem potential_workerMove (hs : s.Sound) (hkeep : s.keepalive = true)
    (hawake : s.worker i ≠ .asleep) (hm : WorkerMove s i s') : s'.potential + 1 ≤ s.potential := by
  obtain ⟨l, hl⟩ := hs.tracked
  have hlen := hl.holds.len
  have hloop := hs.staged.loop (hs.staged.keepalive.symm.trans hkeep) i
  cases hm with
  | start place | enter place | proceed place | count place | finish place | endMore place
  | sleep place =>
    exact worker_goes 1 rfl rfl ⟨rfl, rfl⟩ (by rw [place]; simp [WorkerPc.potential])
  | take place posted =>
    refine worker_pays 1 0 rfl rfl ?_
    rw [place, posted]
    change 11 + 13 * s.queue.len + 11 * 0 + 1 ≤ 1 + 13 * s.queue.len + 11 * 1 + 0
    omega
  | @pullNone queue place free hpull =>
    obtain ⟨hhead, hholds⟩ := hl.pulls hpull
    have hrest := hholds.len
    rw [List.length_tail] at hrest
    refine worker_pays 1 0 rfl rfl ?_
    rw [place]
    change 7 + 13 * queue.len + 11 * s.hasJobs.toNat + 1 ≤ 9 + _ + _ + 0
    omega
  | @pullLast queue job place free hpull last =>
    obtain ⟨hhead, hholds⟩ := hl.pulls hpull
    have hrest := hholds.len
    rw [List.length_tail] at hrest
    refine worker_pays 1 0 rfl rfl ?_
    rw [place]
    change 8 + 13 * queue.len + 11 * s.hasJobs.toNat + 1 ≤ 9 + _ + _ + 0
    omega
  | @pullMore queue job place free hpull more =>
    obtain ⟨hhead, hholds⟩ := hl.pulls hpull
    have hrest := hholds.len
    rw [List.length_tail] at hrest
    refine worker_pays 1 0 rfl rfl ?_
    rw [place]
    change 21 + 13 * queue.len + 11 * s.hasJobs.toNat + 1 ≤ 9 + _ + _ + 0
    omega
  | @post job s' place hposted =>
    have hend := potential_posted hposted
    have hmove : ({ s with queueLock := none }.workerTo i (.running job)).potential + 13 ≤
        s.potential :=
      worker_goes 13 rfl rfl ⟨rfl, rfl⟩ (by rw [place]; simp [WorkerPc.potential])
    omega
  | endLast place free last signalled =>
    have hend := potential_signalled signalled
    have hmove : ({ s with working := s.working - 1 }.workerTo i .top).potential + 5 ≤
        s.potential :=
      worker_goes 5 rfl rfl ⟨rfl, rfl⟩ (by rw [place]; simp [WorkerPc.potential])
    omega
  | quit place stop | turn place stop => exact absurd (stop.symm.trans hkeep) Bool.false_ne_true
  | exit place | leave place =>
    rw [place] at hloop
    cases hloop
  | stir place => exact absurd place hawake

private theorem potential_clientMove (hs : s.Sound) (hidle : s.client k ≠ .idle)
    (hblocked : s.client k ≠ .blocked) (hm : ClientMove s k s') :
    s'.potential + 1 ≤ s.potential := by
  cases hm with
  | add stage place | wait stage place => exact absurd place hidle
  | stir place => exact absurd (ClientPc.eq_blocked place) hblocked
  | lock place | seeEmpty place | seeJobs place | seeIdle place | seeWorking place | block place
  | leave place =>
    exact client_goes 1 rfl rfl ⟨rfl, rfl⟩ (by rw [place]; simp [ClientPc.potential])
  | post place hposted =>
    have hend := potential_posted hposted
    have hmove : ({ s with queueLock := none }.clientTo k .idle).potential + 13 ≤ s.potential :=
      client_goes 13 rfl rfl ⟨rfl, rfl⟩ (by rw [place]; simp [ClientPc.potential])
    omega
  | @push p work queue jobs place free push =>
    obtain ⟨queue', jobs', hpush, hlen⟩ := hs.exists_push place
    rw [push] at hpush
    cases hpush
    refine client_pays 1 0 rfl rfl rfl ?_
    rw [place]
    change 13 + 13 * queue.len + 1 ≤ 27 + 13 * s.queue.len + 0
    omega

/-- Every step that the threads take by themselves takes something off, and the pool stays in
use. -/
theorem potential_step {a : PoolAct n m W} (hs : s.Sound) (hready : s.stage = .ready)
    (ha : ThreadStep a s) (h : poolStep a s = some s') :
    s'.potential + 1 ≤ s.potential ∧ s'.stage = .ready := by
  have hkeep : s.keepalive = true := by rw [hs.staged.keepalive, hready]; rfl
  have hact := act_of_step h
  cases a with
  | worker i wakes signals =>
    obtain ⟨hmove, hawake⟩ := workerMove_of_act hact
    exact ⟨potential_workerMove hs hkeep hawake hmove, hmove.stage.trans hready⟩
  | client k wakes =>
    obtain ⟨hmove, hidle, hblocked⟩ := clientMove_of_act hact
    exact ⟨potential_clientMove hs hidle hblocked hmove, hmove.stage.trans hready⟩
  | master | addWork | wait | stir => exact ha.elim

/-- The threads of a pool in use run out of steps. -/
theorem length_le_potential {acts : List (PoolAct n m W)} (hs : s.Sound)
    (hready : s.stage = .ready) (hrun : Run poolStep ThreadStep acts s s') :
    acts.length + s'.potential ≤ s.potential ∧ s'.stage = .ready := by
  induction hrun with
  | nil s => exact ⟨Nat.le_of_eq (Nat.zero_add _), hready⟩
  | cons ha hstep _ ih =>
    obtain ⟨hpaid, hready'⟩ := potential_step hs hready ha hstep
    have hs' := hs.step hstep
    obtain ⟨hle, hend⟩ := ih hs' hready'
    refine ⟨?_, hend⟩
    rw [List.length_cons]
    omega

end Pool

open Pool

/-- From every state of a pool that is in use and has threads: whatever the order in which the
threads run, they take a bounded number of steps by themselves, and when none of them can go on, all
jobs that have been added have been run, the queue is empty, every worker sleeps, and a client that
is still in a call is blocked in `thpool_wait`. -/
theorem work_gets_done {acts acts' : List (PoolAct n m W)} {s s' : Pool n m W}
    (hrun : Run poolStep Unguarded acts (Pool.initial n m W) s) (hn : 0 < n)
    (hready : s.stage = .ready) (hthreads : Run poolStep ThreadStep acts' s s') :
    acts'.length ≤ s.potential ∧ (s'.AtRest →
      (∀ p ∈ addedJobs s'.trace, p ∈ finishedJobs s'.trace) ∧ s'.queue.len = 0 ∧
        (∀ i, s'.worker i = .asleep) ∧ ∀ k, s'.client k = .idle ∨ s'.client k = .blocked) := by
  obtain ⟨hle, hready'⟩ := length_le_potential (sound_of_run hrun) hready hthreads
  refine ⟨by omega, fun hrest ↦ ?_⟩
  have hwhole := hrun.append (hthreads.mono fun _ _ _ ↦ trivial)
  obtain ⟨hasleep, _, hempty, _, hdone, hclient⟩ := pool_at_rest hwhole hn hready' hrest
  exact ⟨hdone, hempty, hasleep, hclient⟩

-- A worker and a client by themselves, from the call of `thpool_wait` to rest.
private def finale (i : Fin n) (k : Fin m) : List (PoolAct n m W) :=
  List.replicate 3 (.client k none) ++ labour i 6 ++ [.worker i none (some k)] ++
    List.replicate 4 (.client k none) ++ labour i 2

/-- A job that has been added is run before the pool comes to rest. -/
theorem work_gets_done_sample :
    ∃ s : Pool 1 1 Nat, s.AtRest ∧ addedJobs s.trace = [0] ∧ 0 ∈ finishedJobs s.trace := by
  have h : (follow poolStep Unguarded (opening 0 ++ errand 0 7 ++ [.wait 0])
      (Pool.initial 1 1 Nat)).any (fun s ↦ decide (s.stage = .ready) &&
        (follow poolStep ThreadStep (finale 0 0) s).any fun s' ↦
          decide s'.AtRest && addedJobs s'.trace == [0]) = true := by decide
  obtain ⟨s, hrun, hs⟩ := Run.exists_of_follow h
  obtain ⟨hready, hs⟩ := Bool.and_eq_true_iff.mp hs
  obtain ⟨s', hthreads, hs'⟩ := Run.exists_of_follow hs
  obtain ⟨hrest, hadded⟩ := Bool.and_eq_true_iff.mp hs'
  obtain ⟨_, hdone⟩ :=
    work_gets_done hrun Nat.one_pos (of_decide_eq_true hready) hthreads
  have hrest := of_decide_eq_true hrest
  have hadded := beq_iff_eq.mp hadded
  exact ⟨s', hrest, hadded, (hdone hrest).1 0 (by rw [hadded]; exact List.mem_singleton.mpr rfl)⟩

/-- If no two clients are blocked in `thpool_wait` at once, every call of it returns: when the
threads have taken their steps, whose number is bounded, no client is in a call. -/
theorem thpool_wait_returns {acts acts' : List (PoolAct n m W)} {s s' : Pool n m W}
    (hrun : Run poolStep OneBlocked acts (Pool.initial n m W) s) (hn : 0 < n)
    (hready : s.stage = .ready)
    (hthreads : Run poolStep (fun a s ↦ ThreadStep a s ∧ OneBlocked a s) acts' s s') :
    acts'.length ≤ s.potential ∧ (s'.AtRest → ∀ k, s'.client k = .idle) := by
  obtain ⟨hle, hready'⟩ :=
    length_le_potential (sound_of_run hrun) hready (hthreads.mono fun _ _ h ↦ h.1)
  refine ⟨by omega, fun hrest k ↦ ?_⟩
  have hwhole := hrun.append (hthreads.mono fun _ _ h ↦ h.2)
  obtain ⟨_, _, hempty, hworking, _, hclient⟩ :=
    pool_at_rest (hwhole.mono fun _ _ _ ↦ trivial) hn hready' hrest
  exact idle_at_rest hwhole hempty hworking (hclient k)

/-- A call of `thpool_wait` has returned behind a job. -/
theorem thpool_wait_returns_sample :
    ∃ s : Pool 1 1 Nat, finishedJobs s.trace = [0] ∧ s.client 0 = .idle := by
  have h : (follow poolStep OneBlocked (opening 0 ++ errand 0 7 ++ [.wait 0])
      (Pool.initial 1 1 Nat)).any (fun s ↦ decide (s.stage = .ready) &&
        (follow poolStep (fun a s ↦ ThreadStep a s ∧ OneBlocked a s) (finale 0 0) s).any fun s' ↦
          decide s'.AtRest && finishedJobs s'.trace == [0]) = true := by decide
  obtain ⟨s, hrun, hs⟩ := Run.exists_of_follow h
  obtain ⟨hready, hs⟩ := Bool.and_eq_true_iff.mp hs
  obtain ⟨s', hthreads, hs'⟩ := Run.exists_of_follow hs
  obtain ⟨hrest, hfinished⟩ := Bool.and_eq_true_iff.mp hs'
  obtain ⟨_, hidle⟩ :=
    thpool_wait_returns hrun Nat.one_pos (of_decide_eq_true hready) hthreads
  exact ⟨s', beq_iff_eq.mp hfinished, hidle (of_decide_eq_true hrest) 0⟩

/-- With two clients blocked, the signal wakes one of them, and the other one sleeps on although all
jobs have been run. -/
theorem second_waiter_sleeps :
    ∃ (acts : List (PoolAct 1 2 Nat)) (s : Pool 1 2 Nat),
      Run poolStep Unguarded acts (Pool.initial 1 2 Nat) s ∧ s.AtRest ∧
        finishedJobs s.trace = [0] ∧ (s.client 1).isBlocked = true := by
  have h : (follow poolStep Unguarded
      ([.master true none, .master true none, .worker 0 none none, .master true none,
        .addWork 0 7 true, .client 0 none, .client 0 none, .wait 0, .wait 1] ++
        List.replicate 3 (.client 0 none) ++ List.replicate 3 (.client 1 none) ++
        List.replicate 6 (.worker 0 none none) ++ [.worker 0 none (some 0)] ++
        List.replicate 4 (.client 0 none) ++ List.replicate 2 (.worker 0 none none))
      (Pool.initial 1 2 Nat)).any (fun s ↦ decide s.AtRest &&
        (finishedJobs s.trace == [0] && (s.client 1).isBlocked)) = true := by decide
  obtain ⟨s, hrun, hs⟩ := Run.exists_of_follow h
  obtain ⟨hrest, hs⟩ := Bool.and_eq_true_iff.mp hs
  obtain ⟨hfinished, hblocked⟩ := Bool.and_eq_true_iff.mp hs
  exact ⟨_, s, hrun, of_decide_eq_true hrest, beq_iff_eq.mp hfinished, hblocked⟩

end Q2Admin
