import Q2Admin.Pool.Locks

/-!
# Jobs of the pool

Library `Q2Admin.Pool`. Whatever the threads do in whatever order, jobs leave the queue in the order
in which they have been added, each of them once, and a job that a worker has taken is run once by
this worker, with the function that it has been added with. The invariant is `Pool.Tracked`, with
the list of jobs that wait in the queue.
-/

namespace Q2Admin

variable {n m : Nat} {W : Type}

/-- The job that a worker has taken and not finished. -/
def WorkerPc.job : WorkerPc → Option Nat
  | .posting p | .running p => some p
  | _ => none

/-- The job that a thread is about to add. -/
def ClientPc.newJob : ClientPc W → Option (Nat × W)
  | .adding p work => some (p, work)
  | _ => none

section Trace

variable {t : List (PoolEvent n m W)}

/-- The jobs that have been added, the first one in front. -/
def addedJobs (t : List (PoolEvent n m W)) : List Nat :=
  (t.filterMap fun
    | .added p _ => some p
    | _ => none).reverse

/-- The jobs that have been taken from the queue, to be run or to be freed. -/
def takenJobs (t : List (PoolEvent n m W)) : List Nat :=
  (t.filterMap fun
    | .pulled _ p | .dropped p => some p
    | _ => none).reverse

/-- The jobs that have been run. -/
def finishedJobs (t : List (PoolEvent n m W)) : List Nat :=
  (t.filterMap fun
    | .finished _ p _ => some p
    | _ => none).reverse

/-- A job has been added if that is noted. -/
theorem mem_addedJobs {p : Nat} : p ∈ addedJobs t ↔ ∃ w, .added p w ∈ t := by
  unfold addedJobs
  rw [List.mem_reverse, List.mem_filterMap]
  constructor
  · rintro ⟨e, he, hp⟩
    cases e <;> cases hp
    exact ⟨_, he⟩
  · rintro ⟨w, hw⟩
    exact ⟨_, hw, rfl⟩

/-- A job has been taken if a worker has pulled it, or if it has been dropped. -/
theorem mem_takenJobs {p : Nat} :
    p ∈ takenJobs t ↔ (∃ i, .pulled i p ∈ t) ∨ .dropped p ∈ t := by
  unfold takenJobs
  rw [List.mem_reverse, List.mem_filterMap]
  constructor
  · rintro ⟨e, he, hp⟩
    cases e <;> cases hp
    · exact .inl ⟨_, he⟩
    · exact .inr he
  · rintro (⟨i, hi⟩ | hd)
    · exact ⟨_, hi, rfl⟩
    · exact ⟨_, hd, rfl⟩

/-- A job has been run if some worker has noted it. -/
theorem mem_finishedJobs {p : Nat} : p ∈ finishedJobs t ↔ ∃ i w, .finished i p w ∈ t := by
  unfold finishedJobs
  rw [List.mem_reverse, List.mem_filterMap]
  constructor
  · rintro ⟨e, he, hp⟩
    cases e <;> cases hp
    exact ⟨_, _, he⟩
  · rintro ⟨i, w, hw⟩
    exact ⟨_, hw, rfl⟩

-- A list whose images differ holds one element for each image.
private theorem eq_of_nodup_filterMap {α β : Type} {f : α → Option β} {l : List α} {a b : α}
    {x : β} (h : (l.filterMap f).Nodup) (ha : a ∈ l) (hb : b ∈ l) (hfa : f a = some x)
    (hfb : f b = some x) : a = b := by
  induction l with
  | nil => cases ha
  | cons c l ih =>
    cases hc : f c with
    | none =>
      have hne {d : α} (hd : f d = some x) : d ≠ c := fun heq ↦ by
        rw [heq, hc] at hd
        cases hd
      rw [List.filterMap_cons_none hc] at h
      exact ih h (List.mem_of_ne_of_mem (hne hfa) ha) (List.mem_of_ne_of_mem (hne hfb) hb)
    | some y =>
      rw [List.filterMap_cons_some hc, List.nodup_cons] at h
      have hhead {d : α} (hd : d ∈ l) (hfd : f d = some x) : f c ≠ some x := fun hfc ↦ by
        rw [hc] at hfc
        cases hfc
        have hmem : x ∈ l.filterMap f := List.mem_filterMap.mpr ⟨d, hd, hfd⟩
        exact h.1 hmem
      rcases List.mem_cons.mp ha with hac | ha'
      · rcases List.mem_cons.mp hb with hbc | hb'
        · rw [hac, hbc]
        · exact absurd (hac ▸ hfa) (hhead hb' hfb)
      · rcases List.mem_cons.mp hb with hbc | hb'
        · exact absurd (hbc ▸ hfb) (hhead ha' hfa)
        · exact ih h.2 ha' hb'

/-- A job that has been taken once has been taken by one worker. -/
theorem pulled_unique {i j : Fin n} {p : Nat} (h : (takenJobs t).Nodup)
    (hi : .pulled i p ∈ t) (hj : .pulled j p ∈ t) : i = j := by
  have heq := eq_of_nodup_filterMap (List.nodup_reverse.mp h) hi hj rfl rfl
  cases heq
  rfl

/-- A job that a worker has taken is not freed by `jobqueue_clear`. -/
theorem not_dropped_of_pulled {i : Fin n} {p : Nat} (h : (takenJobs t).Nodup)
    (hi : .pulled i p ∈ t) : .dropped p ∉ t := fun hd ↦ by
  have heq := eq_of_nodup_filterMap (List.nodup_reverse.mp h) hi hd rfl rfl
  cases heq

end Trace

namespace Pool

variable {s s' : Pool n m W} {l : List Nat} {i : Fin n} {k : Fin m}

/-- The jobs in this list wait in the queue; the others that have been added are where they
belong. -/
structure Tracked (s : Pool n m W) (l : List Nat) : Prop where
  holds : s.queue.Holds s.jobs l
  order : addedJobs s.trace = takenJobs s.trace ++ l
  nodup : (addedJobs s.trace).Nodup
  below : ∀ p ∈ addedJobs s.trace, p < s.nextJob
  adding : ∀ k p w, (s.client k).newJob = some (p, w) →
    p < s.nextJob ∧ p ∉ addedJobs s.trace ∧ (s.jobs p).map Job.work = some w ∧
      ∀ k' w', (s.client k').newJob = some (p, w') → k' = k
  hand : ∀ i p, (s.worker i).job = some p →
    .pulled i p ∈ s.trace ∧ p ∉ finishedJobs s.trace ∧ s.jobs p ≠ none
  pulled : ∀ i p, .pulled i p ∈ s.trace → (s.worker i).job = some p ∨ ∃ w, .finished i p w ∈ s.trace
  finished : (finishedJobs s.trace).Nodup
  ran : ∀ i p w, .finished i p w ∈ s.trace → .pulled i p ∈ s.trace
  live : ∀ p, s.jobs p ≠ none →
    p ∈ l ∨ (∃ i, (s.worker i).job = some p) ∨ ∃ k w, (s.client k).newJob = some (p, w)
  cells : ∀ p w job, .added p w ∈ s.trace → s.jobs p = some job → job.work = w
  works : ∀ i p w w', .added p w ∈ s.trace → .finished i p w' ∈ s.trace → w' = w

namespace Tracked

/-- No job is taken twice, or taken and still queued. -/
theorem taken_nodup (h : s.Tracked l) : (takenJobs s.trace ++ l).Nodup := h.order ▸ h.nodup

/-- A job that waits in the queue has not been taken. -/
theorem untaken (h : s.Tracked l) {p : Nat} (hp : p ∈ l) : p ∉ takenJobs s.trace :=
  fun htaken ↦ (List.nodup_append.mp h.taken_nodup).2.2 p htaken p hp rfl

private theorem mem_added_of_taken (h : s.Tracked l) {p : Nat} (hp : p ∈ takenJobs s.trace) :
    p ∈ addedJobs s.trace := by
  rw [h.order]
  exact List.mem_append_left _ hp

private theorem taken_of_hand (h : s.Tracked l) {p : Nat} (hp : (s.worker i).job = some p) :
    p ∈ takenJobs s.trace := mem_takenJobs.mpr (.inl ⟨i, (h.hand i p hp).1⟩)

private theorem finished_taken (h : s.Tracked l) {p : Nat} (hp : p ∈ finishedJobs s.trace) :
    p ∈ takenJobs s.trace := by
  obtain ⟨i, w, hw⟩ := mem_finishedJobs.mp hp
  exact mem_takenJobs.mpr (.inl ⟨i, h.ran i p w hw⟩)

/-- A job is in the hands of one worker. -/
theorem hand_unique (h : s.Tracked l) {j : Fin n} {p : Nat} (hi : (s.worker i).job = some p)
    (hj : (s.worker j).job = some p) : i = j :=
  pulled_unique (List.nodup_append.mp h.taken_nodup).1 (h.hand i p hi).1 (h.hand j p hj).1

/-- What is neither a job nor a place with a job does not matter. -/
theorem congr (h : s.Tracked l) (hworker : ∀ i, (s'.worker i).job = (s.worker i).job)
    (hclient : ∀ k, (s'.client k).newJob = (s.client k).newJob)
    (hmemory : (s'.queue, s'.jobs, s'.nextJob) = (s.queue, s.jobs, s.nextJob))
    (htrace : s'.trace = s.trace) : s'.Tracked l := by
  obtain ⟨hqueue, hmemory⟩ := Prod.mk.inj hmemory
  obtain ⟨hjobs, hnext⟩ := Prod.mk.inj hmemory
  constructor <;> simp only [hworker, hclient, hqueue, hjobs, hnext, htrace]
  exacts [h.holds, h.order, h.nodup, h.below, h.adding, h.hand, h.pulled, h.finished, h.ran, h.live,
    h.cells, h.works]

private theorem worker_stays (h : s.Tracked l) {pc : WorkerPc}
    (hworker : s'.worker = Function.update s.worker i pc) (hclient : s'.client = s.client)
    (hmemory : (s'.queue, s'.jobs, s'.nextJob) = (s.queue, s.jobs, s.nextJob))
    (htrace : s'.trace = s.trace) (hpc : pc.job = (s.worker i).job) : s'.Tracked l := by
  refine h.congr (fun j ↦ ?_) (fun k ↦ by rw [hclient]) hmemory htrace
  rw [hworker]
  by_cases hj : j = i
  · rw [hj, Function.update_self, hpc]
  · rw [Function.update_of_ne hj]

private theorem client_stays (h : s.Tracked l) {pc : ClientPc W}
    (hworker : s'.worker = s.worker) (hclient : s'.client = Function.update s.client k pc)
    (hmemory : (s'.queue, s'.jobs, s'.nextJob) = (s.queue, s.jobs, s.nextJob))
    (htrace : s'.trace = s.trace) (hpc : pc.newJob = (s.client k).newJob) : s'.Tracked l := by
  refine h.congr (fun i ↦ by rw [hworker]) (fun j ↦ ?_) hmemory htrace
  rw [hclient]
  by_cases hj : j = k
  · rw [hj, Function.update_self, hpc]
  · rw [Function.update_of_ne hj]

private theorem posted (h : s.Tracked l) (hp : Posted s s') : s'.Tracked l := by
  cases hp with
  | woken i asleep => exact h.worker_stays rfl rfl rfl rfl (by rw [asleep]; rfl)
  | unheard awake => exact h.congr (fun _ ↦ rfl) (fun _ ↦ rfl) rfl rfl

private theorem signalled (h : s.Tracked l) (hs : Signalled s s') : s'.Tracked l := by
  cases hs with
  | woken k blocked =>
    exact h.client_stays rfl rfl rfl rfl (by rw [ClientPc.eq_blocked blocked]; rfl)
  | unheard awake => exact h

private theorem note (h : s.Tracked l) (k : Fin m) :
    { s with trace := .waiting k :: s.trace }.Tracked l ∧
      { s with trace := .waited k :: s.trace }.Tracked l := by
  constructor <;> constructor <;> simp only [List.mem_cons, reduceCtorEq, false_or]
  exacts [h.holds, h.order, h.nodup, h.below, h.adding, h.hand, h.pulled, h.finished, h.ran, h.live,
    h.cells, h.works, h.holds, h.order, h.nodup, h.below, h.adding, h.hand, h.pulled, h.finished,
    h.ran, h.live, h.cells, h.works]

/-- A job in the queue has been added. -/
theorem mem_added_of_mem (h : s.Tracked l) {p : Nat} (hp : p ∈ l) : p ∈ addedJobs s.trace := by
  rw [h.order]
  exact List.mem_append_right _ hp

private theorem add (h : s.Tracked l) {work : W} (place : s.client k = .idle) :
    ({ s with
      jobs := Function.update s.jobs s.nextJob (some ⟨none, work⟩)
      nextJob := s.nextJob + 1 }.clientTo k (.adding s.nextJob work)).Tracked l := by
  have hkeep {p : Nat} (hp : p < s.nextJob) :
      Function.update s.jobs s.nextJob (some ⟨none, work⟩) p = s.jobs p :=
    Function.update_of_ne (Nat.ne_of_lt hp) _ _
  have hold {k' : Fin m} (hk : k' ≠ k) :
      Function.update s.client k (.adding s.nextJob work) k' = s.client k' :=
    Function.update_of_ne hk _ _
  have hcell : Function.update s.jobs s.nextJob (some ⟨none, work⟩) s.nextJob =
      some ⟨none, work⟩ := Function.update_self _ _ _
  have hplace : Function.update s.client k (.adding s.nextJob work) k =
      .adding s.nextJob work := Function.update_self _ _ _
  constructor
  case holds => exact h.holds.congr fun p hp ↦ hkeep (h.below p (h.mem_added_of_mem hp))
  case below => exact fun p hp ↦ Nat.lt_succ_of_lt (h.below p hp)
  case adding =>
    intro k' p w hk'
    change (Function.update s.client k _ k').newJob = _ at hk'
    by_cases hk : k' = k
    · subst hk
      rw [Function.update_self] at hk'
      cases hk'
      refine ⟨Nat.lt_succ_self _, fun hp ↦ Nat.lt_irrefl _ (h.below _ hp), ?_, ?_⟩
      · exact congrArg (Option.map Job.work) hcell
      · intro j w' hj
        by_contra hne
        change (Function.update s.client k' _ j).newJob = _ at hj
        rw [hold hne] at hj
        exact Nat.lt_irrefl _ (h.adding _ _ _ hj).1
    · rw [hold hk] at hk'
      obtain ⟨hlt, hnew, hwork, honly⟩ := h.adding k' p w hk'
      refine ⟨Nat.lt_succ_of_lt hlt, hnew, (congrArg _ (hkeep hlt)).trans hwork, ?_⟩
      intro j w' hj
      change (Function.update s.client k _ j).newJob = _ at hj
      by_cases hjk : j = k
      · rw [hjk, Function.update_self] at hj
        cases hj
        exact absurd hlt (Nat.lt_irrefl _)
      · rw [hold hjk] at hj
        exact honly j w' hj
  case hand =>
    intro i p hp
    obtain ⟨hpulled, hunfinished, hcell⟩ := h.hand i p hp
    refine ⟨hpulled, hunfinished, ?_⟩
    have hlt := h.below p (h.mem_added_of_taken (h.taken_of_hand hp))
    change Function.update s.jobs _ _ p ≠ none
    rw [hkeep hlt]
    exact hcell
  case live =>
    intro p hp
    change Function.update s.jobs _ _ p ≠ none at hp
    by_cases hnew : p = s.nextJob
    · exact .inr (.inr ⟨k, work, hnew ▸ congrArg ClientPc.newJob hplace⟩)
    · rw [Function.update_of_ne hnew] at hp
      rcases h.live p hp with hl | hhand | ⟨k', w, hk'⟩
      · exact .inl hl
      · exact .inr (.inl hhand)
      · have hne : k' ≠ k := by
          rintro rfl
          rw [place] at hk'
          cases hk'
        exact .inr (.inr ⟨k', w, (congrArg ClientPc.newJob (hold hne)).trans hk'⟩)
  case cells =>
    intro p w job hadded hjob
    have hlt := h.below p (mem_addedJobs.mpr ⟨w, hadded⟩)
    exact h.cells p w job hadded ((hkeep hlt).symm.trans hjob)
  exacts [h.order, h.nodup, h.pulled, h.finished, h.ran, h.works]

private theorem push (h : s.Tracked l) {p : Nat} {work : W} {queue : JobQueue} {jobs : Jobs W}
    (place : s.client k = .adding p work)
    (push : jobqueuePush s.queue s.jobs p = some (queue, jobs)) :
    ({ s with
      queue := queue
      jobs := jobs
      queueLock := some (.inr k)
      trace := .added p work :: s.trace }.clientTo k .pushed).Tracked (l ++ [p]) := by
  have hk : (s.client k).newJob = some (p, work) := by rw [place]; rfl
  obtain ⟨hlt, hnew, hwork, honly⟩ := h.adding k p work hk
  obtain ⟨job, hjob, hjobw⟩ := Option.map_eq_some_iff.mp hwork
  have hnotmem : p ∉ l := fun hp ↦ hnew (h.mem_added_of_mem hp)
  obtain ⟨q', jobs', hpush, hholds, hworks⟩ :=
    h.holds.push (List.nodup_append.mp h.taken_nodup).2.1 hnotmem hjob
  rw [push] at hpush
  cases hpush
  have hnone (r : Nat) : jobs r ≠ none ↔ s.jobs r ≠ none := by
    have hr := hworks r
    rw [not_iff_not, ← Option.map_eq_none_iff (f := Job.work), hr, Option.map_eq_none_iff]
  have hadded : addedJobs (.added p work :: s.trace) = addedJobs s.trace ++ [p] := by
    simp [addedJobs]
  have htaken : takenJobs (.added p work :: s.trace) = takenJobs s.trace := rfl
  constructor
  case holds => exact hholds
  case order =>
    change addedJobs (.added p work :: s.trace) = takenJobs (.added p work :: s.trace) ++ (l ++ [p])
    rw [hadded, htaken, h.order, List.append_assoc]
  case nodup =>
    change (addedJobs (.added p work :: s.trace)).Nodup
    rw [hadded]
    exact List.nodup_append.mpr ⟨h.nodup, List.nodup_singleton p, fun r hr r' hr' heq ↦
      hnew (List.mem_singleton.mp hr' ▸ heq ▸ hr)⟩
  case below =>
    change ∀ r ∈ addedJobs (.added p work :: s.trace), r < s.nextJob
    rw [hadded]
    intro r hr
    rcases List.mem_append.mp hr with hr | hr
    · exact h.below r hr
    · exact List.mem_singleton.mp hr ▸ hlt
  case adding =>
    have hother {k' : Fin m} {r : Nat} {w : W}
        (hk' : (Function.update s.client k .pushed k').newJob = some (r, w)) :
        k' ≠ k ∧ (s.client k').newJob = some (r, w) := by
      have hne : k' ≠ k := by
        rintro rfl
        rw [Function.update_self] at hk'
        cases hk'
      rw [Function.update_of_ne hne] at hk'
      exact ⟨hne, hk'⟩
    intro k' r w hplace
    obtain ⟨hne, hk'⟩ := hother hplace
    obtain ⟨hlt', hnew', hwork', honly'⟩ := h.adding k' r w hk'
    refine ⟨hlt', ?_, (hworks r).trans hwork', fun j w' hj ↦ honly' j w' (hother hj).2⟩
    change r ∉ addedJobs (.added p work :: s.trace)
    rw [hadded]
    intro hr
    rcases List.mem_append.mp hr with hr | hr
    · exact hnew' hr
    · obtain rfl := List.mem_singleton.mp hr
      exact hne (honly k' w hk')
  case hand =>
    intro i r hr
    obtain ⟨hpulled, hunfinished, hcell⟩ := h.hand i r hr
    exact ⟨List.mem_cons_of_mem _ hpulled, hunfinished, (hnone r).mpr hcell⟩
  case pulled =>
    intro i r hr
    rcases List.mem_cons.mp hr with heq | hr
    · cases heq
    · rcases h.pulled i r hr with hhand | ⟨w, hw⟩
      · exact .inl hhand
      · exact .inr ⟨w, List.mem_cons_of_mem _ hw⟩
  case finished => exact h.finished
  case ran =>
    intro i r w hr
    rcases List.mem_cons.mp hr with heq | hr
    · cases heq
    · exact List.mem_cons_of_mem _ (h.ran i r w hr)
  case live =>
    intro r hr
    rcases h.live r ((hnone r).mp hr) with hl | hhand | ⟨k', w, hk'⟩
    · exact .inl (List.mem_append_left _ hl)
    · exact .inr (.inl hhand)
    · by_cases hne : k' = k
      · rw [hne, hk] at hk'
        cases hk'
        exact .inl (List.mem_append_right _ (List.mem_singleton.mpr rfl))
      · refine .inr (.inr ⟨k', w, ?_⟩)
        exact (congrArg ClientPc.newJob (Function.update_of_ne hne _ _)).trans hk'
  case cells =>
    intro r w job' hr hjob'
    have hw : (s.jobs r).map Job.work = some job'.work := by
      rw [← hworks r]
      exact congrArg _ hjob'
    rcases List.mem_cons.mp hr with heq | hr
    · cases heq
      rw [hwork] at hw
      exact (Option.some.inj hw).symm
    · obtain ⟨job₀, hjob₀, hwork₀⟩ := Option.map_eq_some_iff.mp hw
      rw [← hwork₀]
      exact h.cells r w job₀ hr hjob₀
  case works =>
    intro i r w w' hr hw'
    rcases List.mem_cons.mp hw' with heq | hw'
    · cases heq
    · rcases List.mem_cons.mp hr with heq | hr
      · cases heq
        exact absurd (h.mem_added_of_taken (h.finished_taken (mem_finishedJobs.mpr ⟨i, w', hw'⟩)))
          hnew
      · exact h.works i r w w' hr hw'

/-- A job in the queue has not been freed. -/
theorem cell_of_mem (h : s.Tracked l) {p : Nat} (hp : p ∈ l) : s.jobs p ≠ none := by
  obtain ⟨job, hjob⟩ := h.holds.linked.allocated hp
  rw [hjob]
  nofun

private theorem pull {p : Nat} (h : s.Tracked (p :: l)) {pc : WorkerPc}
    (place : (s.worker i).job = none) (hpc : pc.job = some p)
    (hworker : s'.worker = Function.update s.worker i pc) (hclient : s'.client = s.client)
    (hjobs : s'.jobs = s.jobs) (hnext : s'.nextJob = s.nextJob)
    (htrace : s'.trace = .pulled i p :: s.trace) (hholds : s'.queue.Holds s.jobs l) :
    s'.Tracked l := by
  have hself : (s'.worker i).job = some p := by rw [hworker, Function.update_self, hpc]
  have hother {j : Fin n} (hj : j ≠ i) : s'.worker j = s.worker j := by
    rw [hworker, Function.update_of_ne hj]
  have hmem : p ∈ p :: l := List.mem_cons_self
  have htaken : takenJobs s'.trace = takenJobs s.trace ++ [p] := by
    rw [htrace]
    simp [takenJobs]
  have hadded : addedJobs s'.trace = addedJobs s.trace := by rw [htrace]; rfl
  have hfinished : finishedJobs s'.trace = finishedJobs s.trace := by rw [htrace]; rfl
  constructor
  case holds => exact hjobs ▸ hholds
  case order => rw [hadded, htaken, h.order, List.append_assoc]; rfl
  case hand =>
    intro j r hr
    by_cases hj : j = i
    · rw [hj, hself] at hr
      cases hr
      rw [hj, htrace, ← htrace, hfinished, hjobs, htrace]
      exact ⟨List.mem_cons_self, fun hp ↦ h.untaken hmem (h.finished_taken hp), h.cell_of_mem hmem⟩
    · rw [hother hj] at hr
      obtain ⟨hpulled, hunfinished, hcell⟩ := h.hand j r hr
      exact ⟨htrace ▸ List.mem_cons_of_mem _ hpulled, hfinished ▸ hunfinished, hjobs ▸ hcell⟩
  case pulled =>
    intro j r hr
    rw [htrace] at hr ⊢
    rcases List.mem_cons.mp hr with heq | hr
    · cases heq
      exact .inl hself
    · rcases h.pulled j r hr with hhand | ⟨w, hw⟩
      · have hj : j ≠ i := by
          rintro rfl
          rw [place] at hhand
          cases hhand
        exact .inl ((congrArg WorkerPc.job (hother hj)).trans hhand)
      · exact .inr ⟨w, List.mem_cons_of_mem _ hw⟩
  case live =>
    intro r hr
    rw [hjobs] at hr
    rcases h.live r hr with hl | ⟨j, hj⟩ | hnew
    · rcases List.mem_cons.mp hl with rfl | hl
      · exact .inr (.inl ⟨i, hself⟩)
      · exact .inl hl
    · have hne : j ≠ i := by
        rintro rfl
        rw [place] at hj
        cases hj
      exact .inr (.inl ⟨j, (congrArg WorkerPc.job (hother hne)).trans hj⟩)
    · rw [hclient]
      exact .inr (.inr hnew)
  case nodup => exact hadded ▸ h.nodup
  case below => exact hnext ▸ hadded ▸ h.below
  case adding =>
    rw [hclient, hjobs, hnext, hadded]
    exact h.adding
  case finished => exact hfinished ▸ h.finished
  case ran =>
    simp only [htrace, List.mem_cons, reduceCtorEq, false_or]
    exact fun j r w hr ↦ .inr (h.ran j r w hr)
  case cells =>
    simp only [htrace, hjobs, List.mem_cons, reduceCtorEq, false_or]
    exact h.cells
  case works =>
    simp only [htrace, List.mem_cons, reduceCtorEq, false_or]
    exact h.works

/-- A job that has been taken is not one that a thread is about to add. -/
theorem adding_untaken (h : s.Tracked l) {p r : Nat} {w : W} (hp : p ∈ addedJobs s.trace)
    (hk : (s.client k).newJob = some (r, w)) : r ≠ p := by
  rintro rfl
  exact (h.adding k r w hk).2.1 hp

private theorem finish (h : s.Tracked l) {p : Nat} {job : Job W} (place : s.worker i = .running p)
    (cell : s.jobs p = some job) :
    ({ s with
      jobs := Function.update s.jobs p none
      trace := .finished i p job.work :: s.trace }.workerTo i .ending).Tracked l := by
  have hp : (s.worker i).job = some p := by rw [place]; rfl
  have htaken := h.taken_of_hand hp
  have hkeep {r : Nat} (hr : r ≠ p) : Function.update s.jobs p none r = s.jobs r :=
    Function.update_of_ne hr _ _
  have hother {j : Fin n} {r : Nat}
      (hj : (Function.update s.worker i .ending j).job = some r) :
      (s.worker j).job = some r ∧ r ≠ p := by
    have hne : j ≠ i := by
      rintro rfl
      rw [Function.update_self] at hj
      cases hj
    rw [Function.update_of_ne hne] at hj
    exact ⟨hj, fun heq ↦ hne (h.hand_unique (heq ▸ hj) hp)⟩
  have hfinished : finishedJobs (.finished i p job.work :: s.trace) =
      finishedJobs s.trace ++ [p] := by
    simp [finishedJobs]
  constructor
  case holds =>
    exact h.holds.congr fun r hr ↦ hkeep fun heq ↦ h.untaken (heq ▸ hr) htaken
  case adding =>
    intro k r w hk
    obtain ⟨hlt, hnew, hwork, honly⟩ := h.adding k r w hk
    refine ⟨hlt, hnew, ?_, honly⟩
    exact (congrArg (Option.map Job.work)
      (hkeep (h.adding_untaken (h.mem_added_of_taken htaken) hk))).trans hwork
  case hand =>
    intro j r hj
    obtain ⟨hj, hne⟩ := hother hj
    obtain ⟨hpulled, hunfinished, hcell⟩ := h.hand j r hj
    refine ⟨List.mem_cons_of_mem _ hpulled, ?_, ?_⟩
    · change r ∉ finishedJobs (.finished i p job.work :: s.trace)
      rw [hfinished]
      intro hr
      rcases List.mem_append.mp hr with hr | hr
      · exact hunfinished hr
      · exact hne (List.mem_singleton.mp hr)
    · change Function.update s.jobs p none r ≠ none
      rw [hkeep hne]
      exact hcell
  case pulled =>
    intro j r hr
    rcases List.mem_cons.mp hr with heq | hr
    · cases heq
    · rcases h.pulled j r hr with hhand | ⟨w, hw⟩
      · by_cases hj : j = i
        · rw [hj, hp] at hhand
          cases hhand
          exact .inr ⟨job.work, hj ▸ List.mem_cons_self⟩
        · exact .inl ((congrArg WorkerPc.job (Function.update_of_ne hj _ _)).trans hhand)
      · exact .inr ⟨w, List.mem_cons_of_mem _ hw⟩
  case finished =>
    change (finishedJobs (.finished i p job.work :: s.trace)).Nodup
    rw [hfinished]
    exact List.nodup_append.mpr ⟨h.finished, List.nodup_singleton p, fun r hr r' hr' heq ↦
      (h.hand i p hp).2.1 (List.mem_singleton.mp hr' ▸ heq ▸ hr)⟩
  case ran =>
    intro j r w hr
    rcases List.mem_cons.mp hr with heq | hr
    · cases heq
      exact List.mem_cons_of_mem _ (h.hand i p hp).1
    · exact List.mem_cons_of_mem _ (h.ran j r w hr)
  case live =>
    intro r hr
    change Function.update s.jobs p none r ≠ none at hr
    have hne : r ≠ p := by
      rintro rfl
      exact hr (Function.update_self _ _ _)
    rw [hkeep hne] at hr
    rcases h.live r hr with hl | ⟨j, hj⟩ | hnew
    · exact .inl hl
    · have hji : j ≠ i := by
        rintro rfl
        rw [hp] at hj
        exact hne (Option.some.inj hj).symm
      exact .inr (.inl ⟨j, (congrArg WorkerPc.job (Function.update_of_ne hji _ _)).trans hj⟩)
    · exact .inr (.inr hnew)
  case cells =>
    intro r w job' hr hjob'
    change Function.update s.jobs p none r = some job' at hjob'
    have hne : r ≠ p := by
      rintro rfl
      rw [Function.update_self] at hjob'
      cases hjob'
    rw [hkeep hne] at hjob'
    rcases List.mem_cons.mp hr with heq | hr
    · cases heq
    · exact h.cells r w job' hr hjob'
  case works =>
    intro j r w w' hr hw'
    rcases List.mem_cons.mp hr with heq | hr
    · cases heq
    · rcases List.mem_cons.mp hw' with heq | hw'
      · cases heq
        exact h.cells p w job hr cell
      · exact h.works j r w w' hr hw'
  exacts [h.order, h.nodup, h.below]

private theorem drop {p : Nat} {queue : JobQueue} (h : s.Tracked (p :: l))
    (hholds : queue.Holds s.jobs l) :
    { s with
      queue := queue
      jobs := Function.update s.jobs p none
      trace := .dropped p :: s.trace }.Tracked l := by
  have hmem : p ∈ p :: l := List.mem_cons_self
  have hadded := h.mem_added_of_mem hmem
  have hkeep {r : Nat} (hr : r ≠ p) : Function.update s.jobs p none r = s.jobs r :=
    Function.update_of_ne hr _ _
  have hpl : p ∉ l := (List.nodup_cons.mp (List.nodup_append.mp h.taken_nodup).2.1).1
  have htaken : takenJobs (.dropped p :: s.trace) = takenJobs s.trace ++ [p] := by
    simp [takenJobs]
  constructor
  case holds => exact hholds.congr fun r hr ↦ hkeep fun heq ↦ hpl (heq ▸ hr)
  case order =>
    change addedJobs s.trace = takenJobs (.dropped p :: s.trace) ++ l
    rw [htaken, h.order, List.append_assoc]
    rfl
  case adding =>
    intro k r w hk
    obtain ⟨hlt, hnew, hwork, honly⟩ := h.adding k r w hk
    refine ⟨hlt, hnew, ?_, honly⟩
    exact (congrArg (Option.map Job.work) (hkeep (h.adding_untaken hadded hk))).trans hwork
  case hand =>
    intro j r hj
    obtain ⟨hpulled, hunfinished, hcell⟩ := h.hand j r hj
    refine ⟨List.mem_cons_of_mem _ hpulled, hunfinished, ?_⟩
    change Function.update s.jobs p none r ≠ none
    rw [hkeep fun heq ↦ h.untaken hmem (heq ▸ h.taken_of_hand hj)]
    exact hcell
  case live =>
    intro r hr
    change Function.update s.jobs p none r ≠ none at hr
    have hne : r ≠ p := by
      rintro rfl
      exact hr (Function.update_self _ _ _)
    rw [hkeep hne] at hr
    rcases h.live r hr with hl | hrest
    · exact .inl (List.mem_of_ne_of_mem hne hl)
    · exact .inr hrest
  case cells =>
    intro r w job hr hjob
    change Function.update s.jobs p none r = some job at hjob
    have hne : r ≠ p := by
      rintro rfl
      rw [Function.update_self] at hjob
      cases hjob
    rw [hkeep hne] at hjob
    rcases List.mem_cons.mp hr with heq | hr
    · cases heq
    · exact h.cells r w job hr hjob
  all_goals simp only [List.mem_cons, reduceCtorEq, false_or]
  exacts [h.nodup, h.below, h.pulled, h.finished, h.ran, h.works]

/-- What `jobqueue_pull` returns when these jobs wait. -/
theorem pulls (h : s.Tracked l) {job : Option Nat} {queue : JobQueue}
    (hpull : jobqueuePull s.queue s.jobs = some (job, queue)) :
    job = l.head? ∧ queue.Holds s.jobs l.tail := by
  obtain ⟨q', hq', hholds⟩ := h.holds.pull
  rw [hpull] at hq'
  cases hq'
  exact ⟨rfl, hholds⟩

private theorem pullNone (h : s.Tracked l) {queue : JobQueue}
    (hpull : jobqueuePull s.queue s.jobs = some (none, queue)) :
    { s with queue := queue }.Tracked l := by
  obtain ⟨hhead, hholds⟩ := h.pulls hpull
  cases l with
  | nil =>
    exact ⟨hholds, h.order, h.nodup, h.below, h.adding, h.hand, h.pulled, h.finished, h.ran,
      h.live, h.cells, h.works⟩
  | cons p l => cases hhead

private theorem worker (h : s.Tracked l) (hm : WorkerMove s i s') : ∃ l', s'.Tracked l' := by
  cases hm with
  | start place | enter place | quit place | take place | sleep place | proceed place
  | turn place | count place | endMore place | exit place | leave place | stir place =>
    exact ⟨l, h.worker_stays rfl rfl rfl rfl (by rw [place]; rfl)⟩
  | pullNone place free hpull =>
    exact ⟨l, (h.pullNone hpull).worker_stays rfl rfl rfl rfl (congrArg WorkerPc.job place).symm⟩
  | pullLast place free hpull | pullMore place free hpull =>
    obtain ⟨hhead, hholds⟩ := h.pulls hpull
    cases l with
    | nil => cases hhead
    | cons p l =>
      cases hhead
      exact ⟨l, h.pull (by rw [place]; rfl) rfl rfl rfl rfl rfl rfl hholds⟩
  | post place hposted =>
    refine ⟨l, Tracked.posted ?_ hposted⟩
    exact h.worker_stays rfl rfl rfl rfl (by rw [place]; rfl)
  | finish place cell => exact ⟨l, h.finish place cell⟩
  | endLast place free last hsignalled =>
    refine ⟨l, Tracked.signalled ?_ hsignalled⟩
    exact h.worker_stays rfl rfl rfl rfl (by rw [place]; rfl)

private theorem client (h : s.Tracked l) (hm : ClientMove s k s') : ∃ l', s'.Tracked l' := by
  cases hm with
  | add stage place => exact ⟨l, h.add place⟩
  | push place free push => exact ⟨_, h.push place push⟩
  | post place hposted =>
    refine ⟨l, Tracked.posted ?_ hposted⟩
    exact h.client_stays rfl rfl rfl rfl (by rw [place]; rfl)
  | wait stage place =>
    exact ⟨l, (h.note k).1.client_stays rfl rfl rfl rfl (congrArg ClientPc.newJob place).symm⟩
  | leave place =>
    exact ⟨l, (h.note k).2.client_stays rfl rfl rfl rfl (congrArg ClientPc.newJob place).symm⟩
  | lock place | seeEmpty place | seeJobs place | seeIdle place | seeWorking place | block place =>
    exact ⟨l, h.client_stays rfl rfl rfl rfl (by rw [place]; rfl)⟩
  | stir place =>
    exact ⟨l, h.client_stays rfl rfl rfl rfl (by rw [ClientPc.eq_blocked place]; rfl)⟩

private theorem master (h : s.Tracked l) (hm : MasterMove s s') (hwf : s.Wf) :
    ∃ l', s'.Tracked l' := by
  cases hm with
  | @create made stage more =>
    have habsent := hwf.staged.unmade made stage ⟨made, more⟩ (Nat.le_refl _)
    exact ⟨l, h.worker_stays rfl rfl rfl rfl (by rw [habsent]; rfl)⟩
  | miss | spin | ready | stop | drained => exact ⟨l, h.congr (fun _ ↦ rfl) (fun _ ↦ rfl) rfl rfl⟩
  | rouse =>
    refine ⟨l, h.congr (fun i ↦ ?_) (fun _ ↦ rfl) rfl rfl⟩
    change (ite _ _ _ : WorkerPc).job = _
    split
    · next hasleep =>
      rw [hasleep]
      rfl
    · rfl
  | dropNone stage free more hpull => exact ⟨l, h.pullNone hpull⟩
  | dropLast stage free more hpull =>
    obtain ⟨hhead, hholds⟩ := h.pulls hpull
    cases l with
    | nil => cases hhead
    | cons p l =>
      cases hhead
      exact ⟨l, h.drop hholds⟩
  | dropMore stage free more hpull rest hposted =>
    obtain ⟨hhead, hholds⟩ := h.pulls hpull
    cases l with
    | nil => cases hhead
    | cons p l =>
      cases hhead
      exact ⟨l, (h.drop hholds).posted hposted⟩
  | destroy stage empty =>
    have hnil : l = [] := List.length_eq_zero_iff.mp (h.holds.len.symm.trans empty)
    subst hnil
    exact ⟨[], .empty _, h.order, h.nodup, h.below, h.adding, h.hand, h.pulled, h.finished, h.ran,
      h.live, h.cells, h.works⟩

/-- Before the pool is created no job is tracked. -/
theorem initial (n m : Nat) (W : Type) : (Pool.initial n m W).Tracked [] :=
  ⟨.empty _, rfl, List.nodup_nil, nofun, nofun, nofun, nofun, List.nodup_nil, nofun,
    fun _ h ↦ absurd rfl h, nofun, nofun⟩

end Tracked

/-- What every state satisfies that a pool gets to. -/
structure Sound (s : Pool n m W) : Prop extends s.Wf where
  tracked : ∃ l, s.Tracked l

/-- A step that changes something keeps the pool sound. -/
theorem Sound.move (h : s.Sound) (hm : PoolMove s s') : s'.Sound := by
  refine ⟨h.toWf.move hm, ?_⟩
  obtain ⟨l, hl⟩ := h.tracked
  cases hm with
  | worker i hm => exact hl.worker hm
  | client k hm => exact hl.client hm
  | master hm => exact hl.master hm h.toWf

/-- Every step keeps the pool sound. -/
theorem Sound.step {a : PoolAct n m W} (h : s.Sound) (hs : poolStep a s = some s') : s'.Sound := by
  rcases poolMove_of_step hs with hm | rfl
  · exact h.move hm
  · exact h

/-- The pool is sound before it is created. -/
theorem Sound.initial (n m : Nat) (W : Type) : (Pool.initial n m W).Sound :=
  ⟨.initial n m W, [], .initial n m W⟩

/-- In every run the pool stays sound. -/
theorem sound_of_run {G : PoolAct n m W → Pool n m W → Prop} {acts : List (PoolAct n m W)}
    (hrun : Run poolStep G acts (Pool.initial n m W) s) : s.Sound :=
  hrun.poolInvariant (fun _ _ h hm ↦ h.move hm) (.initial n m W)

end Pool

open Pool

/-- In every order of the steps of all threads: what has been added has been taken, in the order in
which it has been added, or waits in the queue. No job is added, taken or run twice. A job that a
worker has taken is in its hands until it is run, and what is run is what has been added. -/
theorem jobs_run_once_in_order {acts : List (PoolAct n m W)} {s : Pool n m W}
    (hrun : Run poolStep Unguarded acts (Pool.initial n m W) s) :
    ∃ queued, s.queue.Holds s.jobs queued ∧
      addedJobs s.trace = takenJobs s.trace ++ queued ∧ (addedJobs s.trace).Nodup ∧
      (finishedJobs s.trace).Nodup ∧
      (∀ i p, .pulled i p ∈ s.trace →
        ((s.worker i).job = some p ↔ p ∉ finishedJobs s.trace)) ∧
      ∀ i p w, .finished i p w ∈ s.trace → .pulled i p ∈ s.trace ∧ .added p w ∈ s.trace := by
  obtain ⟨queued, h⟩ := (sound_of_run hrun).tracked
  refine ⟨queued, h.holds, h.order, h.nodup, h.finished, fun i p hp ↦ ⟨?_, ?_⟩, fun i p w hw ↦ ?_⟩
  · exact fun hhand ↦ (h.hand i p hhand).2.1
  · intro hunfinished
    rcases h.pulled i p hp with hhand | ⟨w, hw⟩
    · exact hhand
    · exact absurd (mem_finishedJobs.mpr ⟨i, w, hw⟩) hunfinished
  · have hpulled := h.ran i p w hw
    refine ⟨hpulled, ?_⟩
    obtain ⟨w', hadded⟩ :=
      mem_addedJobs.mp (h.mem_added_of_taken (mem_takenJobs.mpr (.inl ⟨i, hpulled⟩)))
    rw [h.works i p w' w hadded hw]
    exact hadded

/-- `thpool_init` with one thread. -/
def opening (i : Fin n) : List (PoolAct n m W) :=
  [.master true none, .master true none, .worker i none none, .master true none]

/-- `thpool_add_work`, with no worker asleep. -/
def errand (k : Fin m) (work : W) : List (PoolAct n m W) :=
  [.addWork k work true, .client k none, .client k none]

/-- Steps of the worker by itself. -/
def labour (i : Fin n) (steps : Nat) : List (PoolAct n m W) :=
  List.replicate steps (.worker i none none)

/-- Two jobs are added, and the first one has been run. -/
theorem jobs_run_once_in_order_sample :
    ∃ s : Pool 1 1 Nat, addedJobs s.trace = [0, 1] ∧ finishedJobs s.trace = [0] ∧
      ∃ queued, addedJobs s.trace = takenJobs s.trace ++ queued := by
  have h : (follow poolStep Unguarded (opening 0 ++ errand 0 7 ++ labour 0 7 ++ errand 0 8)
      (Pool.initial 1 1 Nat)).any (fun s ↦
        addedJobs s.trace == [0, 1] && finishedJobs s.trace == [0]) = true := by decide
  obtain ⟨s, hrun, hs⟩ := Run.exists_of_follow h
  obtain ⟨hadded, hfinished⟩ := Bool.and_eq_true_iff.mp hs
  obtain ⟨queued, _, horder, _⟩ := jobs_run_once_in_order hrun
  exact ⟨s, beq_iff_eq.mp hadded, beq_iff_eq.mp hfinished, queued, horder⟩

end Q2Admin
