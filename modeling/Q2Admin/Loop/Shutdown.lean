import Mathlib.Data.List.Nodup
import Q2Admin.Model.Loop

/-!
# Shutdown

Library `Q2Admin.Loop`. Source `util.c:156–173`. On `SIGINT` the program walks over the poll table
with a loop variable of eight bits. It comes to an end of a table of up to 255 slots; in a larger
one it starts again at the first slot behind slot 255, for ever, and the database is not closed.
-/

namespace Q2Admin

variable {N : Nat} {w : World N}

/-- The slots that have been tested, in order. -/
def slotsVisited (done : List Teardown) : List Nat :=
  done.filterMap fun a ↦ if let .visit slot := a then some slot else none

/-- The descriptors that have been closed, in order. -/
def descriptorsClosed (done : List Teardown) : List Nat :=
  done.filterMap fun a ↦ if let .close fd := a then some fd else none

/-- On `SIGINT` the handler tests every slot once and in order, closes every descriptor of the
table other than zero, and no other, exactly once, and then closes the database. -/
def World.ShutsDown (w : World N) : Prop :=
  ∃ fuel done, signalCatcher fuel w sigint = some (done ++ [.closeDatabase, .exit]) ∧
    .closeDatabase ∉ done ∧ slotsVisited done = List.range w.socketCount ∧
    (descriptorsClosed done).Nodup ∧
    ∀ fd, fd ∈ descriptorsClosed done ↔
      fd ≠ 0 ∧ ∃ slot, slot < w.socketCount ∧ (w.sockets slot).fd = fd

/-- A table whose number of slots the loop variable reaches, without a descriptor in two slots. -/
structure World.ByteSized (w : World N) : Prop where
  slots : w.socketCount ≤ 255
  distinct : ∀ i j, i < j → j < w.socketCount → (w.sockets i).fd = (w.sockets j).fd →
    (w.sockets i).fd = 0

-- What is done for the first slots of the table.
private def World.teardowns (w : World N) (n : Nat) : List Teardown :=
  (List.range n).flatMap w.teardown

private theorem teardowns_succ (n : Nat) :
    w.teardowns (n + 1) = w.teardowns n ++ w.teardown n := by
  unfold World.teardowns
  rw [List.range_succ, List.flatMap_append, List.flatMap_singleton]

private theorem signal_stops (hslots : w.socketCount ≤ 255) {left : Nat}
    (hleft : left ≤ w.socketCount) :
    Stops (signalRound w) ⟨UInt8.ofNat (w.socketCount - left), w.teardowns (w.socketCount - left)⟩
      (w.teardowns w.socketCount) := by
  have hsize : UInt8.size = 256 := rfl
  induction left with
  | zero =>
    apply Stops.of_inr
    unfold signalRound
    rw [if_neg]
    · rfl
    · dsimp only
      rw [UInt8.toNat_ofNat_of_lt' (by omega)]
      omega
  | succ left ih =>
    obtain ⟨n, hn⟩ : ∃ n, n = w.socketCount - (left + 1) := ⟨_, rfl⟩
    have hnext : w.socketCount - left = n + 1 := by omega
    have hbyte : (UInt8.ofNat n).toNat = n := UInt8.toNat_ofNat_of_lt' (by omega)
    have hrest := ih (by omega)
    rw [hnext] at hrest
    rw [← hn]
    refine Stops.of_inl ?_ hrest
    unfold signalRound
    dsimp only
    rw [hbyte, if_pos (by omega), ← teardowns_succ, UInt8.ofNat_add]
    rfl

-- In a larger table the loop variable is always below the number of slots.
private theorem signal_never (hslots : 255 < w.socketCount) (st : SignalState)
    (done : List Teardown) : ¬ Stops (signalRound w) st done := by
  apply Stops.never (I := fun _ ↦ True) _ trivial
  intro st _
  have hbyte := st.i.toNat_lt
  have hround : signalRound w st = .inl ⟨st.i + 1, st.done ++ w.teardown st.i.toNat⟩ := by
    unfold signalRound
    rw [if_pos (by omega)]
  exact ⟨_, hround, trivial⟩

private theorem slotsVisited_teardowns (n : Nat) :
    slotsVisited (w.teardowns n) = List.range n := by
  induction n with
  | zero => rfl
  | succ n ih =>
    have hone : slotsVisited (w.teardown n) = [n] := by
      unfold World.teardown
      split <;> rfl
    have happend : slotsVisited (w.teardowns n ++ w.teardown n) =
        slotsVisited (w.teardowns n) ++ slotsVisited (w.teardown n) := List.filterMap_append
    rw [teardowns_succ, happend, ih, hone, List.range_succ]

private theorem descriptorsClosed_teardowns (n : Nat) :
    descriptorsClosed (w.teardowns n) =
      ((List.range n).map fun slot ↦ (w.sockets slot).fd).filter fun fd ↦ fd ≠ 0 := by
  induction n with
  | zero => rfl
  | succ n ih =>
    have hone : descriptorsClosed (w.teardown n) =
        [(w.sockets n).fd].filter fun fd ↦ fd ≠ 0 := by
      unfold World.teardown
      by_cases hfd : (w.sockets n).fd = 0
      · simp [hfd, descriptorsClosed]
      · simp [hfd, descriptorsClosed]
    have happend : descriptorsClosed (w.teardowns n ++ w.teardown n) =
        descriptorsClosed (w.teardowns n) ++ descriptorsClosed (w.teardown n) :=
      List.filterMap_append
    rw [teardowns_succ, happend, ih, hone, List.range_succ, List.map_append, List.filter_append,
      List.map_singleton]

private theorem closeDatabase_notMem_teardowns (n : Nat) :
    .closeDatabase ∉ w.teardowns n := by
  intro h
  obtain ⟨slot, _, h⟩ := List.mem_flatMap.mp h
  unfold World.teardown at h
  split at h
  · simp at h
  · simp at h

private theorem mem_descriptorsClosed (n fd : Nat) :
    fd ∈ descriptorsClosed (w.teardowns n) ↔
      fd ≠ 0 ∧ ∃ slot, slot < n ∧ (w.sockets slot).fd = fd := by
  rw [descriptorsClosed_teardowns]
  simp only [List.mem_filter, List.mem_map, List.mem_range, ne_eq, decide_not,
    Bool.not_eq_true', decide_eq_false_iff_not]
  exact and_comm

private theorem nodup_descriptorsClosed (n : Nat) :
    (descriptorsClosed (w.teardowns n)).Nodup ↔ ∀ i j, i < j → j < n →
      (w.sockets i).fd = (w.sockets j).fd → (w.sockets i).fd = 0 := by
  rw [descriptorsClosed_teardowns, List.Nodup, List.pairwise_filter, List.pairwise_map,
    List.pairwise_iff_getElem]
  simp only [List.length_range, List.getElem_range]
  constructor
  · intro h i j hij hj hfd
    by_contra hne
    exact h i j (by omega) hj hij (by simpa using hne) (by rw [← hfd]; simpa using hne) hfd
  · intro h i j _ hj hij hne _ hfd
    simp [h i j hij hj hfd] at hne

/-- The handler shuts down exactly if the table has 255 slots at most, and no descriptor but zero
stands in two of them. -/
theorem shutsDown_iff (w : World N) : w.ShutsDown ↔ w.ByteSized := by
  constructor
  · rintro ⟨fuel, done, hrun, _, _, hnodup, _⟩
    obtain ⟨done', hrounds, hdone⟩ := Option.map_eq_some_iff.mp hrun
    have hstops : Stops (signalRound w) ⟨0, []⟩ done' := ⟨fuel, hrounds⟩
    have hslots : w.socketCount ≤ 255 := by
      by_contra hmany
      exact signal_never (by omega) _ _ hstops
    have hall := signal_stops hslots (Nat.le_refl w.socketCount)
    rw [Nat.sub_self] at hall
    have heq : done = w.teardowns w.socketCount := by
      rw [← hstops.unique hall]
      exact (List.append_cancel_right hdone).symm
    rw [heq] at hnodup
    exact ⟨hslots, (nodup_descriptorsClosed _).mp hnodup⟩
  · rintro ⟨hslots, hdistinct⟩
    have hall := signal_stops hslots (Nat.le_refl w.socketCount)
    rw [Nat.sub_self] at hall
    obtain ⟨fuel, hrounds⟩ := hall
    refine ⟨fuel, w.teardowns w.socketCount, ?_, closeDatabase_notMem_teardowns _,
      slotsVisited_teardowns _, (nodup_descriptorsClosed _).mpr hdistinct,
      mem_descriptorsClosed _⟩
    exact Option.map_eq_some_iff.mpr ⟨_, hrounds, rfl⟩

private def sampleTable : World 0 :=
  { initial (fun q2 ↦ q2.elim0) 3 fun _ ↦ ⟨0, false, false⟩ with
    sockets := fun slot ↦ ⟨slot + 3, true, false⟩
    socketCount := 256 }

/-- With 256 slots the handler does not come to an end. -/
theorem large_table_never_shuts_down : ¬ ∀ w : World 0, w.ShutsDown := by
  intro hall
  obtain ⟨fuel, done, hrun, _⟩ := hall sampleTable
  obtain ⟨done', hrounds, _⟩ := Option.map_eq_some_iff.mp hrun
  have hslots : sampleTable.socketCount = 256 := rfl
  exact signal_never (by rw [hslots]; decide) _ _ ⟨fuel, hrounds⟩

end Q2Admin
