import Mathlib.Data.List.Nodup
import Mathlib.Logic.Function.Basic

/-!
# The job queue

Library `Q2Admin.Pool`. Source `threadpool.c:50–66` and `threadpool.c:399–487`. A job is linked to
the one behind it, the queue points to the first and the last. `JobQueue.Holds` relates these
pointers to the list of jobs that they stand for; pushing appends to it and pulling takes its head.
-/

namespace Q2Admin

variable {W : Type}

/-- `job`: the link to the next job, and the function with its argument; `threadpool.c:51–55`. -/
structure Job (W : Type) where
  prev : Option Nat
  work : W

/-- The jobs that are allocated. A pointer is identified by its allocation. -/
abbrev Jobs (W : Type) := Nat → Option (Job W)

/-- `jobqueue` without its lock and its semaphore; `threadpool.c:59–65`. -/
structure JobQueue where
  front : Option Nat
  rear : Option Nat
  len : Nat

/-- A queue without jobs; `threadpool.c:401–403`. -/
def JobQueue.empty : JobQueue := ⟨none, none, 0⟩

/-- `jobqueue_push` between its locks; `threadpool.c:437–451`. There is no result where a pointer
is followed that points to no job. -/
def jobqueuePush (q : JobQueue) (jobs : Jobs W) (newjob : Nat) : Option (JobQueue × Jobs W) :=
  (jobs newjob).bind fun job ↦
    let jobs := Function.update jobs newjob (some { job with prev := none })
    if q.len = 0 then some (⟨some newjob, some newjob, 1⟩, jobs)
    else
      q.rear.bind fun rear ↦ (jobs rear).map fun last ↦
        (⟨q.front, some newjob, q.len + 1⟩,
          Function.update jobs rear (some { last with prev := some newjob }))

/-- `jobqueue_pull` between its locks, apart from the post for what remains;
`threadpool.c:464–483`. -/
def jobqueuePull (q : JobQueue) (jobs : Jobs W) : Option (Option Nat × JobQueue) :=
  if q.len = 0 then some (q.front, q)
  else if q.len = 1 then some (q.front, .empty)
  else
    q.front.bind fun front ↦ (jobs front).map fun job ↦
      (some front, { q with front := job.prev, len := q.len - 1 })

/-- Each of the jobs is allocated and linked to the next one. -/
def Linked (jobs : Jobs W) : List Nat → Prop
  | [] => True
  | p :: l => (∃ job, jobs p = some job ∧ job.prev = l.head?) ∧ Linked jobs l

/-- The queue stands for these jobs, the first one in front. -/
structure JobQueue.Holds (q : JobQueue) (jobs : Jobs W) (l : List Nat) : Prop where
  front : q.front = l.head?
  rear : q.rear = l.getLast?
  len : q.len = l.length
  linked : Linked jobs l

section Linked

variable {jobs jobs' : Jobs W} {l : List Nat} {p : Nat}

/-- The jobs of a chain are allocated. -/
theorem Linked.allocated (h : Linked jobs l) (hp : p ∈ l) : ∃ job, jobs p = some job := by
  induction l with
  | nil => cases hp
  | cons r l ih =>
    rcases List.mem_cons.mp hp with rfl | hp
    · exact ⟨_, h.1.choose_spec.1⟩
    · exact ih h.2 hp

/-- What happens to other jobs does not matter. -/
theorem Linked.congr (h : Linked jobs l) (hjobs : ∀ p ∈ l, jobs' p = jobs p) :
    Linked jobs' l := by
  induction l with
  | nil => trivial
  | cons r l ih =>
    obtain ⟨⟨job, hjob, hprev⟩, hrest⟩ := h
    exact ⟨⟨job, (hjobs r List.mem_cons_self).trans hjob, hprev⟩,
      ih hrest fun p hp ↦ hjobs p (List.mem_cons_of_mem _ hp)⟩

/-- Linking the last job to a new one that is linked to nothing. -/
theorem Linked.append {last : Nat} {job job' : Job W} (h : Linked jobs l)
    (hlast : l.getLast? = some last) (hnodup : l.Nodup) (hp : p ∉ l)
    (hjob : jobs last = some job) (hjob' : jobs p = some job') (hprev : job'.prev = none) :
    Linked (Function.update jobs last (some { job with prev := some p })) (l ++ [p]) := by
  induction l with
  | nil => cases hlast
  | cons r l ih =>
    obtain ⟨⟨first, hfirst, hnext⟩, hrest⟩ := h
    obtain ⟨hr, hnodup⟩ := List.nodup_cons.mp hnodup
    obtain ⟨hpr, hpl⟩ := not_or.mp fun hor ↦ hp (List.mem_cons.mpr hor)
    cases l with
    | nil =>
      obtain rfl : r = last := by simpa using hlast
      refine ⟨⟨_, Function.update_self _ _ _, rfl⟩, ⟨job', ?_, hprev⟩, trivial⟩
      rw [Function.update_of_ne hpr, hjob']
    | cons r' l =>
      have hlast : (r' :: l).getLast? = some last := by simpa using hlast
      have hmem : last ∈ r' :: l := List.mem_of_getLast? hlast
      have hne : r ≠ last := fun heq ↦ hr (heq ▸ hmem)
      refine ⟨⟨first, ?_, hnext⟩, ih hrest hlast hnodup hpl⟩
      rw [Function.update_of_ne hne, hfirst]

end Linked

namespace JobQueue.Holds

variable {jobs jobs' : Jobs W} {q : JobQueue} {l : List Nat} {p : Nat}

/-- The empty queue holds no job. -/
theorem empty (jobs : Jobs W) : JobQueue.empty.Holds jobs [] := ⟨rfl, rfl, rfl, trivial⟩

/-- A queue depends on the memory of its own jobs only. -/
theorem congr (h : q.Holds jobs l) (hjobs : ∀ p ∈ l, jobs' p = jobs p) : q.Holds jobs' l :=
  ⟨h.front, h.rear, h.len, h.linked.congr hjobs⟩

/-- Pushing a job that is allocated and not in the queue appends it; the work of all jobs stays. -/
theorem push {job : Job W} (h : q.Holds jobs l) (hnodup : l.Nodup) (hp : p ∉ l)
    (hjob : jobs p = some job) :
    ∃ q' jobs', jobqueuePush q jobs p = some (q', jobs') ∧ q'.Holds jobs' (l ++ [p]) ∧
      ∀ r, (jobs' r).map Job.work = (jobs r).map Job.work := by
  obtain ⟨jobs₁, hjobs₁⟩ : ∃ jobs₁, jobs₁ =
      Function.update jobs p (some { job with prev := none }) := ⟨_, rfl⟩
  have hself : jobs₁ p = some { job with prev := none } := by simp [hjobs₁]
  have hwork (r : Nat) : (jobs₁ r).map Job.work = (jobs r).map Job.work := by
    by_cases hr : r = p
    · rw [hr, hself, hjob]
      rfl
    · rw [hjobs₁, Function.update_of_ne hr]
  have hlinked : Linked jobs₁ l := h.linked.congr fun r hr ↦ by
    have hne : r ≠ p := fun heq ↦ hp (heq ▸ hr)
    rw [hjobs₁, Function.update_of_ne hne]
  unfold jobqueuePush
  rw [hjob, Option.bind_some]
  simp only [← hjobs₁]
  cases hlast : l.getLast? with
  | none =>
    obtain rfl := List.getLast?_eq_none_iff.mp hlast
    have hlen : q.len = 0 := h.len
    rw [if_pos hlen]
    exact ⟨_, _, rfl, ⟨rfl, rfl, rfl, ⟨_, hself, rfl⟩, trivial⟩, hwork⟩
  | some last =>
    have hmem : last ∈ l := List.mem_of_getLast? hlast
    have hpos := List.length_pos_of_mem hmem
    obtain ⟨final, hfinal⟩ := hlinked.allocated hmem
    rw [if_neg (by rw [h.len]; omega), h.rear, hlast, Option.bind_some, hfinal, Option.map_some]
    refine ⟨_, _, rfl, ⟨?_, ?_, ?_, hlinked.append hlast hnodup hp hfinal hself rfl⟩, fun r ↦ ?_⟩
    · rw [h.front, List.head?_append]
      cases l with
      | nil => cases hmem
      | cons _ _ => rfl
    · rw [List.getLast?_append]
      rfl
    · rw [h.len, List.length_append]
      rfl
    · by_cases hr : r = last
      · rw [hr, Function.update_self, ← hwork, hfinal]
        rfl
      · rw [Function.update_of_ne hr, hwork]

/-- Pulling takes the first job, if there is one. -/
theorem pull (h : q.Holds jobs l) :
    ∃ q', jobqueuePull q jobs = some (l.head?, q') ∧ q'.Holds jobs l.tail := by
  unfold jobqueuePull
  cases l with
  | nil =>
    have hlen : q.len = 0 := h.len
    rw [if_pos hlen, h.front]
    exact ⟨q, rfl, h⟩
  | cons p l =>
    have hlen : q.len = l.length + 1 := h.len
    rw [if_neg (by omega)]
    cases l with
    | nil =>
      have hone : q.len = 1 := hlen
      rw [if_pos hone, h.front]
      exact ⟨_, rfl, empty jobs⟩
    | cons p' l =>
      obtain ⟨⟨job, hjob, hprev⟩, hrest⟩ := h.linked
      have hlen' : q.len = l.length + 1 + 1 := hlen
      rw [if_neg (by omega), h.front, List.head?_cons, Option.bind_some, hjob]
      refine ⟨_, rfl, hprev, ?_, ?_, hrest⟩
      · have hrear := h.rear
        simpa using hrear
      · simp [hlen']

end JobQueue.Holds

end Q2Admin
