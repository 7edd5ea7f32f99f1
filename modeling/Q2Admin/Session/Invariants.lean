import Q2Admin.Session.Machine

/-!
# Invariants of the session machine

Library `Q2Admin.Session`. `Wf`: the records and the poll table agree, whatever happens.
`Tidy`: moreover the descriptors in the table are distinct and open; it needs every
HELLO for a registered server to be answered. `Full`: moreover no open socket is missing.
`Trusting`: a trusted session has verified itself on its own socket.
-/

namespace Q2Admin

variable {N : Nat}

namespace Core

/-- The poll table and the server records agree. -/
structure Wf (k : Core N) : Prop where
  listener : k.fds 0 = k.listener
  count_pos : 1 ≤ k.count
  slot : ∀ s, (k.records s).connected = true →
    k.InTable (k.records s).index ∧ k.fds (k.records s).index = (k.records s).socket
  inj : ∀ s t, (k.records s).connected = true → (k.records t).connected = true →
    (k.records s).index = (k.records t).index → s = t
  idle : ∀ s, (k.records s).connected = false → (k.records s).index = 0

/-- A server with an index is connected. -/
theorem Wf.connected_of_index {k : Core N} (h : k.Wf) {s : Fin N} {i : Nat}
    (hs : (k.records s).index = i) (hi : 1 ≤ i) : (k.records s).connected = true := by
  by_contra hc
  have hz := h.idle s (Bool.eq_false_iff.mpr hc)
  omega

/-- Rebuilding restores the agreement of table and records. -/
theorem wf_of_rebuilt {k k' : Core N} (h : Rebuilt k k') (hl : k.fds 0 = k.listener)
    (hidle : ∀ s, (k.records s).connected = false → (k.records s).index = 0) : k'.Wf where
  listener := by rw [h.fds_zero, h.listener, hl]
  count_pos := h.count_pos
  slot s hs := by
    rw [h.connected s] at hs
    rw [h.socket s]
    exact h.slot s hs
  inj s t hs ht he := by
    rw [h.connected s] at hs
    rw [h.connected t] at ht
    exact h.inj s t hs ht he
  idle s hs := by
    rw [h.connected s] at hs
    rw [h.idle s hs]
    exact hidle s hs

private theorem wf_rebuild {k : Core N} (h : k.Wf) : k.rebuild.Wf :=
  wf_of_rebuilt (rebuilt_rebuild k) h.listener h.idle

/-- Accepting a client keeps the machine well formed. -/
theorem wf_accept {k : Core N} (h : k.Wf) (fd : Nat) : (k.accept fd).Wf := by
  have hpos := h.count_pos
  have hfd (i : Nat) (hi : i < k.count) : (k.accept fd).fds i = k.fds i :=
    Function.update_of_ne (by omega) _ _
  refine ⟨?_, Nat.le_succ_of_le hpos, ?_, h.inj, h.idle⟩
  · rw [hfd 0 (by omega)]
    exact h.listener
  · intro s hs
    obtain ⟨⟨h1, h2⟩, h3⟩ := h.slot s hs
    exact ⟨⟨h1, Nat.lt_succ_of_lt h2⟩, (hfd _ h2).trans h3⟩

/-- Noting an event keeps the machine well formed. -/
theorem wf_log {k : Core N} (h : k.Wf) (e : Event) : (k.log e).Wf :=
  ⟨h.listener, h.count_pos, h.slot, h.inj, h.idle⟩

private theorem wf_reject {k : Core N} (h : k.Wf) (i : Nat) : (k.reject i).Wf :=
  wf_rebuild (wf_log h _)

private theorem wf_hangUp {k : Core N} (h : k.Wf) (q2 : Fin N) (i : Nat) : (k.hangUp q2 i).Wf := by
  refine wf_of_rebuilt (rebuilt_rebuild _) h.listener fun s hs ↦ ?_
  rw [shut_records] at hs ⊢
  by_cases hq : s = q2
  · rw [hq, updateRecord_self]
  · rw [updateRecord_of_ne _ _ hq] at hs ⊢
    exact h.idle s hs

/-- Closing a connection keeps the machine well formed. -/
theorem wf_close {k : Core N} (h : k.Wf) (q2 : Fin N) : (k.close q2).Wf := by
  refine wf_of_rebuilt (rebuilt_rebuild _) h.listener fun s hs ↦ ?_
  by_cases hq : s = q2
  · rw [hq, updateRecord_self]
  · rw [updateRecord_of_ne _ _ hq] at hs ⊢
    exact h.idle s hs

private theorem wf_updateRecord {k : Core N} (h : k.Wf) (q2 : Fin N) {f : Record → Record}
    (hf : ∀ r, (f r).index = r.index ∧ (f r).connected = r.connected ∧ (f r).socket = r.socket) :
    (k.updateRecord q2 f).Wf := by
  have hr (s : Fin N) :
      ((k.updateRecord q2 f).records s).index = (k.records s).index ∧
      ((k.updateRecord q2 f).records s).connected = (k.records s).connected ∧
      ((k.updateRecord q2 f).records s).socket = (k.records s).socket := by
    by_cases hq : s = q2
    · rw [hq, updateRecord_self]
      exact hf _
    · rw [updateRecord_of_ne _ _ hq]
      exact ⟨rfl, rfl, rfl⟩
  refine ⟨h.listener, h.count_pos, fun s hs ↦ ?_, fun s t hs ht he ↦ ?_, fun s hs ↦ ?_⟩
  · rw [(hr s).2.1] at hs
    rw [(hr s).1, (hr s).2.2]
    exact h.slot s hs
  · rw [(hr s).2.1] at hs
    rw [(hr t).2.1] at ht
    rw [(hr s).1, (hr t).1] at he
    exact h.inj s t hs ht he
  · rw [(hr s).2.1] at hs
    rw [(hr s).1]
    exact h.idle s hs

/-- Granting trust keeps the machine well formed. -/
theorem wf_grant {k : Core N} (h : k.Wf) (q2 : Fin N) : (k.grant q2).Wf :=
  wf_log (wf_updateRecord h q2 (f := fun r ↦ { r with trusted := true })
    fun _ ↦ ⟨rfl, rfl, rfl⟩) _

/-- Binding a server to a slot that nobody owns keeps the machine well formed. -/
theorem wf_bind {k : Core N} (h : k.Wf) (q2 : Fin N) {i : Nat} (port : UInt16)
    (maxclients : UInt8) (hi : k.InTable i) (hu : k.Unclaimed i) :
    (k.bind q2 i port maxclients).Wf := by
  apply wf_log
  refine ⟨h.listener, h.count_pos, fun s hs ↦ ?_, fun s t hs ht he ↦ ?_, fun s hs ↦ ?_⟩
  · by_cases hq : s = q2
    · rw [hq, updateRecord_self]
      exact ⟨hi, rfl⟩
    · rw [updateRecord_of_ne _ _ hq] at hs ⊢
      exact h.slot s hs
  · by_cases hsq : s = q2
    · by_cases htq : t = q2
      · rw [hsq, htq]
      · rw [hsq, updateRecord_self, updateRecord_of_ne _ _ htq] at he
        exact absurd he.symm (hu t)
    · by_cases htq : t = q2
      · rw [htq, updateRecord_self, updateRecord_of_ne _ _ hsq] at he
        exact absurd he (hu s)
      · rw [updateRecord_of_ne _ _ hsq] at hs he
        rw [updateRecord_of_ne _ _ htq] at ht he
        exact h.inj s t hs ht he
  · by_cases hq : s = q2
    · rw [hq, updateRecord_self] at hs
      cases hs
    · rw [updateRecord_of_ne _ _ hq] at hs ⊢
      exact h.idle s hs

/-- An invariant of single operations is one of whole messages. -/
theorem applyAll_invariant {I : Core N → Prop} {q2 : Fin N} {ops : List SessionOp}
    (h : ∀ k, ∀ op ∈ ops, I k → I (k.apply q2 op)) {k : Core N} (hk : I k) :
    I (k.applyAll q2 ops) := by
  induction ops generalizing k with
  | nil => exact hk
  | cons op ops ih =>
    exact ih (fun k op' hop ↦ h k op' (List.mem_cons_of_mem op hop))
      (h k op List.mem_cons_self hk)

/-- A message that closes nothing leaves every server at its place in the table. -/
theorem applyAll_index (k : Core N) (q2 : Fin N) {ops : List SessionOp}
    (h : SessionOp.close ∉ ops) (s : Fin N) :
    ((k.applyAll q2 ops).records s).index = (k.records s).index := by
  refine applyAll_invariant (I := fun k' ↦ (k'.records s).index = (k.records s).index)
    (fun k' op hop hk ↦ ?_) rfl
  cases op with
  | close => exact absurd hop h
  | grant =>
    rw [← hk]
    change ((k'.grant q2).records s).index = _
    rw [grant, log_records]
    by_cases hs : s = q2
    · rw [hs, updateRecord_self]
    · rw [updateRecord_of_ne _ _ hs]

/-- The operations of a message keep the machine well formed. -/
theorem wf_applyAll {k : Core N} (h : k.Wf) (q2 : Fin N) (ops : List SessionOp) :
    (k.applyAll q2 ops).Wf := by
  refine applyAll_invariant (fun k op _ hk ↦ ?_) h
  cases op with
  | grant => exact wf_grant hk q2
  | close => exact wf_close hk q2

/-- Every effect keeps table and records in agreement. -/
theorem wf_run {k : Core N} (h : k.Wf) {e : Effect N} (he : e.Valid k) : (e.run k).Wf := by
  cases e with
  | idle => exact h
  | accept fd => exact wf_accept h fd
  | hangUp q2 i => exact wf_hangUp h q2 i
  | reject i => exact wf_reject h i
  | peer i known =>
    cases known with
    | true => exact wf_reject h i
    | false => exact wf_rebuild h
  | hello q2 i port maxclients answer =>
    have hb := wf_bind h q2 port maxclients he.1 he.2
    cases answer with
    | some ops => exact wf_applyAll hb q2 ops
    | none => exact wf_reject hb i
  | message q2 i ops => exact wf_applyAll h q2 ops

end Core

end Q2Admin
