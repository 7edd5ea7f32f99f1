import Q2Admin.Session.Frames
import Q2Admin.Session.Roster
import Q2Admin.Loop.PollTable

/-!
# Ready sockets in a scan

Library `Q2Admin.Loop`. The scan asks the slots of the poll table for `revents`, while its steps
move descriptors between the slots and leave the flags where they are. `scan_reads_ready` says
for which steps the flags still belong to the descriptors: then a scan receives only from
descriptors that its `poll` has reported, and once from each.
-/

namespace Q2Admin

open Exec

variable {N : Nat}

/-- The descriptor that an event has received from. -/
def Event.read : Event → Option Nat
  | .received fd => some fd
  | _ => none

/-- The descriptors that have been received from, newest first. -/
def World.reads (w : World N) : List Nat := w.trace.filterMap Event.read

/-- The client slots that a scan at slot `i` has still to serve. -/
def World.Due (w : World N) (i j : Nat) : Prop := i ≤ j ∧ j < w.socketCount ∧ w.Client j

/-- The slots behind the current one, up to the `n`th, whose flag is set. -/
def World.Flagged (w : World N) (n j : Nat) : Prop :=
  w.scan < j ∧ j ≤ n ∧ (w.sockets j).revents = true

/-- Listing these sockets in the table moves under the flags behind the current slot only
descriptors that stand under such flags, and none of them twice. -/
structure World.Shifts (w : World N) (sockets : List Nat) : Prop where
  due : ∀ j, w.Flagged sockets.length j →
    ∃ i, w.Due (w.scan + 1) i ∧ sockets[j - 1]? = some (w.sockets i).fd
  distinct : ∀ i, w.Flagged sockets.length i → ∀ j, w.Flagged sockets.length j →
    sockets[i - 1]? = sockets[j - 1]? → i = j

section Decidable

variable (w : World N) (p : Nat → Prop) [DecidablePred p]

instance (i : Nat) : Decidable (∃ j, w.Due i j ∧ p j) :=
  decidable_of_iff (∃ j ∈ List.range w.socketCount, (i ≤ j ∧ w.Client j) ∧ p j)
    ⟨fun ⟨j, hj, h, hp⟩ ↦ ⟨j, ⟨h.1, List.mem_range.mp hj, h.2⟩, hp⟩,
      fun ⟨j, h, hp⟩ ↦ ⟨j, List.mem_range.mpr h.2.1, ⟨h.1, h.2.2⟩, hp⟩⟩

instance (n : Nat) : Decidable (∀ j, w.Flagged n j → p j) :=
  decidable_of_iff (∀ j ∈ List.range (n + 1), w.scan < j ∧ (w.sockets j).revents = true → p j)
    ⟨fun h j hj ↦ h j (List.mem_range.mpr (Nat.lt_succ_of_le hj.2.1)) ⟨hj.1, hj.2.2⟩,
      fun h j hj hf ↦ h j ⟨hf.1, Nat.le_of_lt_succ (List.mem_range.mp hj), hf.2⟩⟩

instance (sockets : List Nat) : Decidable (w.Shifts sockets) :=
  decidable_of_iff (_ ∧ _) ⟨fun h ↦ ⟨h.1, h.2⟩, fun h ↦ ⟨h.due, h.distinct⟩⟩

end Decidable

/-- The next step moves no descriptor under a flag of another one: if it accepts a socket, the
flag of the slot for it is clear, and if it rebuilds the table, the flags fit to the sockets
that are listed. -/
def Steady (c : Crypto) (m : Move) (w : World N) : Prop :=
  ((moveEffect c m w).isAccept = true → (w.sockets w.socketCount).revents = false) ∧
    ∀ sockets ∈ (moveEffect c m w).roster w.core, w.Shifts sockets

instance (c : Crypto) (m : Move) (w : World N) : Decidable (Steady c m w) :=
  inferInstanceAs (Decidable (_ ∧ ∀ _ ∈ _, _))

private theorem indifferent_reads : Indifferent (World.reads : World N → _) where
  assign _ _ _ _ := rfl
  log w e he := by
    have hread : e.read = none := by
      cases e with
      | received fd => cases he
      | _ => rfl
    exact List.filterMap_cons_none hread
  allocate _ _ := rfl
  receive _ _ := rfl
  format _ _ _ := rfl

private theorem keeps_reads_rebuild : Keeps (World.reads : World N → _) removeServerSocket :=
  keeps_rebuild (fun _ _ _ ↦ rfl) (fun _ _ _ ↦ rfl) fun _ _ ↦ rfl

private theorem reads_turn {c : Crypto} {env : Answer} {i : Nat} {w w' : World N}
    (h : Turn c env i w w') :
    w'.reads = w.reads ∨ w.Client i ∧ w'.reads = (w.sockets i).fd :: w.reads := by
  have hv : Indifferent (World.reads : World N → _) := indifferent_reads
  have hr : Keeps (World.reads : World N → _) removeServerSocket := keeps_reads_rebuild
  have hreceived (m : MsgBuffer) :
      World.reads { w.receiving env.recv i with msg := m } = (w.sockets i).fd :: w.reads := rfl
  have hexec (q2 : Fin N) (cmds : List Command) : Keeps World.reads (forM cmds (exec c q2)) :=
    hv.execAll hr c q2 cmds fun _ _ ↦ rfl
  cases h with
  | idle same => exact .inl (congrArg World.reads same)
  | accept fd _ _ _ run =>
    cases run
    exact .inl rfl
  | hangUp q2 slot _ _ run => exact .inr ⟨slot, (hv.hangUp hr _ i).ok run⟩
  | message q2 cmds m slot _ _ run =>
    exact .inr ⟨slot, ((hexec q2 cmds).ok run).trans (hv.deciphering _ _ _)⟩
  | peer request m slot _ _ run => exact .inr ⟨slot, (hv.peer hr c i request).ok run⟩
  | stranger m slot _ _ run => exact .inr ⟨slot, (hv.turnAway hr i).ok run⟩
  | refused q2 h m w₁ slot _ _ _ register run =>
    refine .inr ⟨slot, ?_⟩
    rw [(hv.turnAway hr i).ok run, (hv.registerHello c env.hello i h).ok register, hreceived]
  | hello q2 h m w₁ cmds m' slot _ _ _ _ register run =>
    refine .inr ⟨slot, ?_⟩
    rw [(hexec q2 cmds).ok run, hv.deciphering _ _ { w₁ with msg := m' }, hv.receive,
      (hv.registerHello c env.hello i h).ok register, hreceived]

-- The flags of the poll table, and the listener.
private def World.flags (w : World N) : (Nat → Bool) × Nat :=
  (fun n ↦ (w.sockets n).revents, w.listener)

private theorem revents_update (t : Nat → PollFd) (i fd : Nat) :
    (fun n ↦ (Function.update t i { t i with fd := fd, events := true } n).revents) =
      fun n ↦ (t n).revents := by
  funext n
  by_cases hn : n = i
  · rw [hn, Function.update_self]
  · rw [Function.update_of_ne hn]

private theorem indifferent_flags : Indifferent (World.flags : World N → _) where
  assign _ _ _ _ := rfl
  log _ _ _ := rfl
  allocate _ _ := rfl
  receive _ _ := rfl
  format _ _ _ := rfl

private theorem flags_turn {c : Crypto} {env : Answer} {i : Nat} {w w' : World N}
    (h : Turn c env i w w') : w'.flags = w.flags := by
  have hrebuild : Keeps (World.flags : World N → _) removeServerSocket :=
    keeps_rebuild (fun _ _ _ ↦ rfl)
      (fun w i fd ↦ congrArg (fun f ↦ (f, w.listener)) (revents_update w.sockets i fd))
      fun _ _ ↦ rfl
  have haccept (fd : Nat) : Keeps (World.flags : World N → _) (acceptClient (some fd)) := fun w ↦
    congrArg (fun f ↦ (f, w.listener)) (revents_update w.sockets w.socketCount fd)
  rcases indifferent_flags.turn hrebuild h haccept fun _ ↦ rfl with
    hkept | ⟨q2, cmds, w₁, _, hw, hexec⟩
  · exact hkept
  · exact ((indifferent_flags.execAll hrebuild c q2 cmds fun _ _ ↦ rfl).ok hexec).trans hw

/-- No two slots that are still to be served hold the same descriptor. -/
def World.Apart (w : World N) (i : Nat) : Prop :=
  ∀ j k, w.Due i j → w.Due i k → (w.sockets j).fd = (w.sockets k).fd → j = k

-- What a steady step leaves to be served stood behind it before, and is apart.
private theorem due_step {c : Crypto} {env : Answer} {w w' : World N}
    (hs : step c (.serve env) w = some w') (hsteady : Steady c (.serve env) w)
    (hapart : w.Apart w.scan) :
    (∀ j, w'.Due (w.scan + 1) j →
      ∃ i, w.Due (w.scan + 1) i ∧ (w.sockets i).fd = (w'.sockets j).fd) ∧
    w'.Apart (w.scan + 1) := by
  obtain ⟨w₂, hturn, hw'⟩ := step_turn hs
  have hcore := core_step hs
  have hflags : w'.flags = w.flags := by
    rw [hw', ← flags_turn hturn]
    rfl
  have hfds (j : Nat) : (w'.sockets j).fd =
      ((moveEffect c (.serve env) w).run w.core).fds j := congrArg (fun k : Core N ↦ k.fds j) hcore
  have hcount : w'.socketCount = ((moveEffect c (.serve env) w).run w.core).count :=
    congrArg Core.count hcore
  have hrevents (j : Nat) : (w'.sockets j).revents = (w.sockets j).revents :=
    congrFun (congrArg Prod.fst hflags) j
  have hlistener : w'.listener = w.listener := congrArg Prod.snd hflags
  clear hcore hflags hturn hw'
  rcases hsteady with ⟨hclear, hshifts⟩
  generalize moveEffect c (.serve env) w = e at *
  cases hr : e.roster w.core with
  | some sockets =>
    have hshows := Effect.shows_run hr
    have hshift := hshifts sockets hr
    have hflagged {j : Nat} (hj : w'.Due (w.scan + 1) j) : w.Flagged sockets.length j := by
      have hlt := hj.2.1
      rw [hcount, hshows.count] at hlt
      exact ⟨hj.1, Nat.le_of_lt_succ hlt, hrevents j ▸ hj.2.2.1⟩
    have hlisted {j : Nat} (hj : w'.Due (w.scan + 1) j) :
        sockets[j - 1]? = some (w'.sockets j).fd := by
      rw [hfds j]
      exact hshows.fds j (Nat.le_trans (Nat.le_add_left 1 w.scan) hj.1) (hcount ▸ hj.2.1)
    refine ⟨fun j hj ↦ ?_, fun i j hi hj he ↦ ?_⟩
    · obtain ⟨i, hi, hfd⟩ := hshift.due j (hflagged hj)
      rw [hlisted hj] at hfd
      exact ⟨i, hi, (Option.some.inj hfd).symm⟩
    · apply hshift.distinct i (hflagged hi) j (hflagged hj)
      rw [hlisted hi, hlisted hj, he]
  | none =>
    -- Every slot that is to be served after the step is one that was to be served before.
    have hsame (j : Nat) (hj : w'.Due (w.scan + 1) j) :
        w.Due (w.scan + 1) j ∧ (w.sockets j).fd = (w'.sockets j).fd := by
      rcases hj with ⟨hle, hlt, hready, hclient⟩
      rw [hcount] at hlt
      rw [hrevents] at hready
      rw [hlistener, hfds] at hclient
      have hkeep (hold : j < w.socketCount) (hfd : (e.run w.core).fds j = w.core.fds j) :
          w.Due (w.scan + 1) j ∧ (w.sockets j).fd = (w'.sockets j).fd := by
        rw [hfds, hfd]
        exact ⟨⟨hle, hold, hready, fun he ↦ hclient (hfd.trans he)⟩, rfl⟩
      cases ha : e.isAccept with
      | false =>
        obtain ⟨hkept, hsize⟩ := Effect.table_run hr ha
        exact hkeep (hlt.trans_eq hsize) (congrFun hkept j)
      | true =>
        cases e with
        | accept fd =>
          have hnew : j ≠ w.socketCount := by
            rintro rfl
            rw [hclear rfl] at hready
            cases hready
          have hlt' : j < w.socketCount + 1 := hlt
          exact hkeep (by omega) (Function.update_of_ne hnew _ _)
        | _ => cases ha
    refine ⟨fun j hj ↦ ⟨j, hsame j hj⟩, fun i j hi hj he ↦ ?_⟩
    obtain ⟨hi, hfi⟩ := hsame i hi
    obtain ⟨hj, hfj⟩ := hsame j hj
    refine hapart i j ⟨Nat.le_of_succ_le hi.1, hi.2⟩ ⟨Nat.le_of_succ_le hj.1, hj.2⟩ ?_
    rw [hfi, hfj, he]

-- How far a scan has come: the descriptors that it has received from were all reported, and the
-- slots that it has still to serve hold other ones that were reported.
private structure Ahead (w₁ : World N) (l : List Nat) (w : World N) : Prop where
  reads : w.reads = l ++ w₁.reads
  nodup : l.Nodup
  reported : ∀ fd ∈ l, ∃ i, w₁.Due 0 i ∧ (w₁.sockets i).fd = fd
  due : ∀ j, w.Due w.scan j →
    (w.sockets j).fd ∉ l ∧ ∃ i, w₁.Due 0 i ∧ (w₁.sockets i).fd = (w.sockets j).fd
  apart : w.Apart w.scan

private theorem ahead_step {c : Crypto} {env : Answer} {w₁ w w' : World N} {l : List Nat}
    (hs : step c (.serve env) w = some w') (hsteady : Steady c (.serve env) w)
    (h : Ahead w₁ l w) : ∃ l', Ahead w₁ l' w' := by
  obtain ⟨hdue, hapart⟩ := due_step hs hsteady h.apart
  obtain ⟨⟨hlt, _⟩, _⟩ := step_serve hs
  obtain ⟨w₂, hturn, rfl⟩ := step_turn hs
  have hbehind {i : Nat} (hi : w.Due (w.scan + 1) i) : w.Due w.scan i :=
    ⟨Nat.le_of_succ_le hi.1, hi.2⟩
  rcases reads_turn hturn with hreads | ⟨slot, hreads⟩
  · refine ⟨l, hreads.trans h.reads, h.nodup, h.reported, fun j hj ↦ ?_, hapart⟩
    obtain ⟨i, hi, hfd⟩ := hdue j hj
    rw [← hfd]
    exact h.due i (hbehind hi)
  · have hnow : w.Due w.scan w.scan := ⟨Nat.le_refl _, hlt, slot⟩
    obtain ⟨hfresh, hreported⟩ := h.due w.scan hnow
    refine ⟨(w.sockets w.scan).fd :: l, ?_, ?_, ?_, fun j hj ↦ ?_, hapart⟩
    · rw [List.cons_append, ← h.reads]
      exact hreads
    · exact List.nodup_cons.mpr ⟨hfresh, h.nodup⟩
    · intro fd hfd
      rcases List.mem_cons.mp hfd with rfl | hfd
      · exact hreported
      · exact h.reported fd hfd
    · obtain ⟨i, hi, hfd⟩ := hdue j hj
      obtain ⟨hnot, hrep⟩ := h.due i (hbehind hi)
      rw [← hfd]
      refine ⟨fun hmem ↦ ?_, hrep⟩
      rcases List.mem_cons.mp hmem with he | hmem
      · have heq := h.apart i w.scan (hbehind hi) hnow he
        have hle := hi.1
        omega
      · exact hnot hmem

private theorem ahead_run {c : Crypto} {envs : List Answer} {w₁ w w' : World N} {l : List Nat}
    (hrun : Run (step c) (Steady c) (envs.map .serve) w w') (h : Ahead w₁ l w) :
    ∃ l', Ahead w₁ l' w' := by
  induction envs generalizing w l with
  | nil =>
    cases hrun
    exact ⟨l, h⟩
  | cons env envs ih =>
    cases hrun with
    | cons hsteady hs hrest =>
      obtain ⟨l', h'⟩ := ahead_step hs hsteady h
      exact ih hrest h'

/-- If the descriptors that `poll` reports stand in one client slot each, and no step moves a
descriptor under the flag of another one, the scan receives from reported descriptors only,
and once from each. -/
theorem scan_reads_ready (c : Crypto) (ready : List Nat) (envs : List Answer) (w₀ w₁ w : World N)
    (hpoll : step c (.poll ready) w₀ = some w₁) (hapart : w₁.Apart 0)
    (hscan : Run (step c) (Steady c) (envs.map .serve) w₁ w) :
    ∃ reads, w.reads = reads ++ w₁.reads ∧ reads.Nodup ∧
      ∀ fd ∈ reads, fd ∈ ready ∧ ∃ i, i < w₀.socketCount ∧ (w₀.sockets i).fd = fd := by
  have hw₁ := step_poll hpoll
  have hstart : w₁.scan = 0 := by rw [hw₁]
  have hbegin : Ahead w₁ [] w₁ := by
    refine ⟨rfl, List.nodup_nil, fun _ h ↦ absurd h List.not_mem_nil, fun j hj ↦ ?_, ?_⟩
    · rw [hstart] at hj
      exact ⟨List.not_mem_nil, j, hj, rfl⟩
    · rw [hstart]
      exact hapart
  obtain ⟨l, hl⟩ := ahead_run hscan hbegin
  refine ⟨l, hl.reads, hl.nodup, fun fd hfd ↦ ?_⟩
  obtain ⟨i, ⟨_, hlt, hready, _⟩, rfl⟩ := hl.reported fd hfd
  have hcount : w₁.socketCount = w₀.socketCount := by rw [hw₁]
  rw [hcount] at hlt
  have hslot : w₁.sockets i =
      { w₀.sockets i with revents := decide ((w₀.sockets i).fd ∈ ready) } := by
    rw [hw₁]
    exact if_pos hlt
  rw [hslot] at hready ⊢
  exact ⟨of_decide_eq_true hready, i, hlt, rfl⟩

private theorem sampleQuit_length_le : [(2 : UInt8)].length ≤ msgSize := by decide

-- The answers while the slots of the listener and of a server that quits are served.
private def sampleQuitting : List Answer :=
  [.sample none .failed, .sample none (.packet ⟨[2], sampleQuit_length_le⟩)]

/-- A server that has been reported is received from once. -/
theorem scan_reads_ready_sample :
    ∃ w₀ w₁ w : World 1, w.reads = 4 :: w₁.reads ∧ ∃ reads, w.reads = reads ++ w₁.reads ∧
      reads.Nodup ∧ ∀ fd ∈ reads, fd ∈ [4] ∧
        ∃ i, i < w₀.socketCount ∧ (w₀.sockets i).fd = fd := by
  have h : (follow (step Crypto.clear) Unguarded [.poll [3], .accepting 4, .skip, .poll [4], .skip,
      .receiving sampleHello sampleHello_length_le] sampleStart).any (fun w₀ ↦
        (step Crypto.clear (.poll [4]) w₀).any fun w₁ ↦
          w₁.socketCount == 2 && (w₁.sockets 0).fd == w₁.listener &&
            (follow (step Crypto.clear) (Steady Crypto.clear) (sampleQuitting.map .serve) w₁).any
              fun w ↦ w.reads == 4 :: w₁.reads) = true := by decide +kernel
  obtain ⟨w₀, _, h₀⟩ := Run.exists_of_follow h
  obtain ⟨w₁, hpoll, h₁⟩ := (Option.any_eq_true _ _).mp h₀
  simp only [Bool.and_eq_true, beq_iff_eq] at h₁
  rcases h₁ with ⟨⟨hcount, hlistener⟩, h₁⟩
  obtain ⟨w, hscan, hreads⟩ := Run.exists_of_follow h₁
  have hslot {j : Nat} (hj : w₁.Due 0 j) : j = 1 := by
    have hlt := hj.2.1
    have hne : j ≠ 0 := by
      rintro rfl
      exact hj.2.2.2 hlistener
    omega
  refine ⟨w₀, w₁, w, beq_iff_eq.mp hreads, ?_⟩
  refine scan_reads_ready Crypto.clear [4] sampleQuitting w₀ w₁ w hpoll ?_ hscan
  intro j k hj hk _
  rw [hslot hj, hslot hk]

/-- A server quits, and the next socket to be accepted gets its slot with the flag set. -/
theorem scan_reads_idle :
    ¬ ∀ (ms : List Move) (ready : List Nat) (envs : List Answer) (w₀ w₁ w : World 1),
      Run (step Crypto.clear) Unguarded ms sampleStart w₀ →
      step Crypto.clear (.poll ready) w₀ = some w₁ →
      Run (step Crypto.clear) Unguarded (envs.map .serve) w₁ w →
      ∃ reads, w.reads = reads ++ w₁.reads ∧ reads.Nodup ∧ ∀ fd ∈ reads, fd ∈ ready := by
  have h : (follow (step Crypto.clear) Unguarded (sampleBound ++ [.receiving [2] (by decide)])
      sampleStart).any (fun w₀ ↦
        (step Crypto.clear (.poll [3]) w₀).any fun w₁ ↦
          (follow (step Crypto.clear) Unguarded
            ([Answer.sample (some 5) .failed, .sample none (.packet ⟨[0], by decide⟩)].map .serve)
            w₁).any fun w ↦ w.reads == 5 :: w₁.reads) = true := by decide +kernel
  obtain ⟨w₀, hrun, h₀⟩ := Run.exists_of_follow h
  obtain ⟨w₁, hpoll, h₁⟩ := (Option.any_eq_true _ _).mp h₀
  obtain ⟨w, hscan, hreads⟩ := Run.exists_of_follow h₁
  intro hall
  obtain ⟨reads, hsplit, _, hready⟩ := hall _ [3] _ w₀ w₁ w hrun hpoll hscan
  rw [beq_iff_eq.mp hreads] at hsplit
  have hone : [5] = reads := List.append_cancel_right hsplit
  have hmem := hready 5 (hone ▸ List.mem_cons_self)
  simp at hmem

end Q2Admin
