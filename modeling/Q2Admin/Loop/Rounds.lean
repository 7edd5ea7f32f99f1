import Q2Admin.Session.Refinement
import Q2Admin.Session.Roster
import Q2Admin.Loop.PollTable

/-!
# Every scan comes to its end

Library `Q2Admin.Loop`. Source `server.c:592–660`. The bound of the scan is `socket_count`, which
the steps of the scan change: a connection that is accepted makes the table longer, and everything
that rebuilds it may make it shorter. `scan_bounded`: only the listener's slot makes it longer, so
a scan serves at most one slot more than there were when it began, and `poll` is called again.
-/

namespace Q2Admin

variable {N : Nat}

namespace Core

/-- The listener stands in slot 0 only, and no server is bound to it. -/
structure Sole (k : Core N) : Prop where
  slots : ∀ i, k.InTable i → k.fds i ≠ k.listener
  sockets : ∀ s, (k.records s).connected = true → (k.records s).socket ≠ k.listener

variable {k : Core N}

/-- A rebuild lists the sockets of connected servers. -/
theorem sole_rebuild (h : ∀ s, (k.records s).connected = true → (k.records s).socket ≠ k.listener) :
    k.rebuild.Sole := by
  have hr := rebuilt_rebuild k
  refine ⟨fun i hi ↦ ?_, fun s hs ↦ ?_⟩
  · obtain ⟨s, hs, rfl⟩ := hr.onto i hi
    rw [(hr.slot s hs).2, hr.listener]
    exact h s hs
  · rw [hr.connected] at hs
    rw [hr.socket, hr.listener]
    exact h s hs

private theorem sole_accept (h : k.Sole) {fd : Nat} (hfd : fd ≠ k.listener) :
    (k.accept fd).Sole := by
  refine ⟨fun i hi ↦ ?_, h.sockets⟩
  change Function.update k.fds k.count fd i ≠ k.listener
  by_cases hlast : i = k.count
  · rw [hlast, Function.update_self]
    exact hfd
  · rw [Function.update_of_ne hlast]
    exact h.slots i ⟨hi.1, Nat.lt_of_le_of_ne (Nat.le_of_lt_succ hi.2) hlast⟩

private theorem sole_log (h : k.Sole) (e : Event) : (k.log e).Sole := ⟨h.slots, h.sockets⟩

/-- A change of a record that binds it to nothing. -/
theorem sole_updateRecord (h : k.Sole) (q2 : Fin N) {f : Record → Record}
    (hf : ∀ r, (f r).connected = true → r.connected = true ∧ (f r).socket = r.socket) :
    (k.updateRecord q2 f).Sole := by
  refine ⟨h.slots, fun s hs ↦ ?_⟩
  by_cases hq : s = q2
  · rw [hq, updateRecord_self] at hs ⊢
    obtain ⟨hc, hsocket⟩ := hf _ hs
    rw [hsocket]
    exact h.sockets q2 hc
  · rw [updateRecord_of_ne _ _ hq] at hs ⊢
    exact h.sockets s hs

private theorem sole_bind (h : k.Sole) (q2 : Fin N) {i : Nat} (port : UInt16) (maxclients : UInt8)
    (hi : k.InTable i) : (k.bind q2 i port maxclients).Sole := by
  apply sole_log
  refine ⟨h.slots, fun s hs ↦ ?_⟩
  by_cases hq : s = q2
  · rw [hq, updateRecord_self]
    exact h.slots i hi
  · rw [updateRecord_of_ne _ _ hq] at hs ⊢
    exact h.sockets s hs

private theorem sole_reject (h : k.Sole) (i : Nat) : (k.reject i).Sole := sole_rebuild h.sockets

private theorem sole_applyAll (h : k.Sole) (q2 : Fin N) (ops : List SessionOp) :
    (k.applyAll q2 ops).Sole := by
  refine applyAll_invariant (fun k op _ hk ↦ ?_) h
  cases op with
  | grant =>
    exact sole_log (sole_updateRecord (f := fun r ↦ { r with trusted := true }) hk q2
      fun r hr ↦ ⟨hr, rfl⟩) _
  | close =>
    have hclosed := sole_updateRecord (f := fun r ↦ { r with connected := false, index := 0 })
      (sole_log hk (.closed (k.records q2).socket)) q2 fun r hr ↦ absurd hr Bool.false_ne_true
    exact sole_rebuild hclosed.sockets

/-- Every effect leaves the listener alone in its slot. -/
theorem sole_run (h : k.Sole) {e : Effect N} (he : e.Valid k) : (e.run k).Sole := by
  cases e with
  | idle => exact h
  | accept fd => exact sole_accept h he.1
  | hangUp q2 i =>
    have hdropped := sole_updateRecord (f := fun r ↦
      { r with connected := false, index := 0, socket := 0 }) h q2
      fun r hr ↦ absurd hr Bool.false_ne_true
    exact sole_rebuild hdropped.sockets
  | reject i => exact sole_reject h i
  | peer i known =>
    cases known with
    | true => exact sole_reject h i
    | false => exact sole_rebuild h.sockets
  | hello q2 i port maxclients answer =>
    have hb := sole_bind h q2 port maxclients he.1
    cases answer with
    | some ops => exact sole_applyAll hb q2 ops
    | none => exact sole_reject hb i
  | message q2 i ops => exact sole_applyAll h q2 ops

/-- A rebuild does not make the table longer. -/
theorem rebuild_count_le (h : k.Wf) : k.rebuild.count ≤ k.count := by
  rw [rebuild_count]
  exact h.roster_lt

/-- Nor does it when a server has been disconnected before. -/
theorem rebuild_count_le_of_drop (h : k.Wf) (q2 : Fin N) {f : Record → Record}
    (hf : ∀ r, (f r).connected = false) : (k.updateRecord q2 f).rebuild.count ≤ k.count := by
  rw [rebuild_count]
  have hkept {s : Fin N} (hs : ((k.updateRecord q2 f).records s).connected = true) :
      (k.records s).connected = true := by
    by_cases hq : s = q2
    · rw [hq, updateRecord_self, hf] at hs
      cases hs
    · rwa [updateRecord_of_ne _ _ hq] at hs
  exact Core.roster_lt (fun s ↦ (k.records s).index) h.count_pos
    (fun s hs ↦ (h.slot s (hkept hs)).1) fun s t hs ht ↦ h.inj s t (hkept hs) (hkept ht)

private theorem applyAll_count_le (h : k.Wf) (q2 : Fin N) (ops : List SessionOp) :
    (k.applyAll q2 ops).count ≤ k.count := by
  have hall : (k.applyAll q2 ops).Wf ∧ (k.applyAll q2 ops).count ≤ k.count := by
    refine applyAll_invariant (I := fun k' ↦ k'.Wf ∧ k'.count ≤ k.count) (fun k' op _ hk ↦ ?_)
      ⟨h, Nat.le_refl _⟩
    cases op with
    | grant => exact ⟨wf_grant hk.1 q2, hk.2⟩
    | close =>
      refine ⟨wf_close hk.1 q2, Nat.le_trans ?_ hk.2⟩
      exact rebuild_count_le_of_drop (wf_log hk.1 (.closed (k'.records q2).socket)) q2 fun _ ↦ rfl
  exact hall.2

/-- An effect makes the table longer only if it accepts a connection, and by one slot. -/
theorem run_count_le (h : k.Wf) {e : Effect N} (he : e.Valid k) :
    (e.run k).count ≤ k.count + if e.isAccept then 1 else 0 := by
  cases e with
  | idle => exact Nat.le_refl _
  | accept fd => exact Nat.le_refl _
  | hangUp q2 i =>
    have hdropped := rebuild_count_le_of_drop (f := fun r ↦
      { r with connected := false, index := 0, socket := 0 })
      (wf_log h (.closed (k.fds i))) q2 fun _ ↦ rfl
    exact hdropped
  | reject i => exact rebuild_count_le (wf_log h _)
  | peer i known =>
    cases known with
    | true => exact rebuild_count_le (wf_log h _)
    | false => exact rebuild_count_le h
  | hello q2 i port maxclients answer =>
    have hb := wf_bind h q2 port maxclients he.1 he.2
    cases answer with
    | some ops => exact applyAll_count_le hb q2 ops
    | none => exact rebuild_count_le (wf_log hb _)
  | message q2 i ops => exact applyAll_count_le h q2 ops

end Core

/-- The step serves a slot. -/
def Move.isServe : Move → Bool
  | .poll _ => false
  | .serve _ => true

/-- A run of such steps, which belong to one scan. -/
def Serving (m : Move) (_ : World N) : Prop := m.isServe = true

instance (m : Move) (w : World N) : Decidable (Serving m w) :=
  inferInstanceAs (Decidable (_ = true))

section Scans

variable {c : Crypto} {m : Move} {w w' : World N}

/-- A connection is accepted from the listener's slot only. -/
theorem scan_of_isAccept (hs : step c m w = some w') (hsole : w.core.Sole)
    (haccept : (moveEffect c m w).isAccept = true) : w.scan = 0 := by
  cases m with
  | poll ready => cases haccept
  | serve env =>
    by_contra hne
    have hslot : w.core.InTable w.scan := ⟨Nat.one_le_iff_ne_zero.mpr hne, (step_serve hs).1.1⟩
    have hclient : (w.sockets w.scan).fd ≠ w.listener := hsole.slots w.scan hslot
    unfold moveEffect World.effect at haccept
    dsimp only at haccept
    rw [if_neg hclient] at haccept
    split at haccept
    · cases haccept
    · split at haccept
      · split at haccept <;> cases haccept
      · unfold World.firstEffect at haccept
        split at haccept
        · cases haccept
        · cases haccept
        · cases haccept
        · split at haccept <;> cases haccept

/-- The number of slots that a scan has still to serve, at most. -/
def World.remaining (w : World N) : Nat :=
  w.socketCount - w.scan + if w.scan = 0 then 1 else 0

/-- Serving a slot leaves one slot less. -/
theorem remaining_step (hs : step c m w = some w') (hserve : m.isServe = true) (hw : w.core.Wf)
    (hsole : w.core.Sole) : w'.remaining + 1 ≤ w.remaining := by
  have hcount : w'.socketCount ≤ w.socketCount + if (moveEffect c m w).isAccept then 1 else 0 := by
    have h := Core.run_count_le hw (effect_valid hs hw)
    rwa [← core_step hs] at h
  cases m with
  | poll ready => cases hserve
  | serve env =>
    obtain ⟨⟨hscan, _⟩, w₁, _, rfl⟩ := step_serve hs
    have hnext : World.remaining { w₁ with scan := w.scan + 1 } =
        w₁.socketCount - (w.scan + 1) + 0 := rfl
    change w₁.socketCount ≤ _ at hcount
    rw [hnext]
    unfold World.remaining
    cases ha : (moveEffect c (.serve env) w).isAccept with
    | true =>
      rw [ha, if_pos rfl] at hcount
      have hzero := scan_of_isAccept hs hsole ha
      rw [if_pos hzero]
      omega
    | false =>
      rw [ha, if_neg Bool.false_ne_true] at hcount
      omega

end Scans

private theorem sole_initial (rows : Fin N → Row) (listener : Nat) (junk : Nat → PollFd) :
    (initial rows listener junk).core.Sole := by
  refine ⟨fun i hi ↦ ?_, fun s hs ↦ by cases hs⟩
  have hlt : i < 1 := hi.2
  have hle : 1 ≤ i := hi.1
  omega

/-- From every reachable state: the slots that are served before `poll` is called again are at most
those that the table has from the current one on, and one more if the scan has still to begin. -/
theorem scan_bounded {c : Crypto} {rows : Fin N → Row} {listener : Nat} {junk : Nat → PollFd}
    {ms ms' : List Move} {w w' : World N}
    (hrun : Run (step c) Unguarded ms (initial rows listener junk) w)
    (hscan : Run (step c) Serving ms' w w') :
    ms'.length ≤ w.socketCount - w.scan + if w.scan = 0 then 1 else 0 := by
  have hstart : w.core.Wf ∧ w.core.Sole :=
    hrun.core_invariant (fun _ _ _ _ hv hsole ↦ Core.sole_run hsole hv)
      (wf_initial rows listener junk) (sole_initial rows listener junk)
  change ms'.length ≤ w.remaining
  clear hrun
  induction hscan with
  | nil w => exact Nat.zero_le _
  | cons hserve hs _ ih =>
    obtain ⟨hw, hsole⟩ := hstart
    have hv := effect_valid hs hw
    have hless := remaining_step hs hserve hw hsole
    have hrest := ih (by rw [core_step hs]; exact ⟨Core.wf_run hw hv, Core.sole_run hsole hv⟩)
    rw [List.length_cons]
    omega

/-- The listener and, in the slot behind it, the connection that it has accepted; then `poll`. -/
theorem scan_bounded_sample :
    ∃ w : World 1, w.socketCount = 1 ∧ w.scan = 0 ∧
      (∃ w', Run (step Crypto.clear) Serving [.accepting 4, .skip] w w') ∧
      ∀ env w', ¬ Run (step Crypto.clear) Serving [.accepting 4, .skip, .serve env] w w' := by
  have h : (follow (step Crypto.clear) Unguarded [.poll [3]] sampleStart).any (fun w ↦
      decide (w.socketCount = 1 ∧ w.scan = 0) &&
        (follow (step Crypto.clear) Serving [.accepting 4, .skip] w).any fun _ ↦ true) = true := by
    decide +kernel
  obtain ⟨w, hrun, hw⟩ := Run.exists_of_follow h
  rw [Bool.and_eq_true] at hw
  obtain ⟨hcount, hscan⟩ := of_decide_eq_true hw.1
  obtain ⟨w', hserved, _⟩ := Run.exists_of_follow hw.2
  refine ⟨w, hcount, hscan, ⟨w', hserved⟩, fun env w' hlonger ↦ ?_⟩
  have hle := scan_bounded hrun hlonger
  rw [hcount, hscan] at hle
  exact Nat.not_succ_le_self 2 hle

end Q2Admin
