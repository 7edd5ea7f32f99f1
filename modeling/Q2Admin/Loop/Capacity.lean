import Q2Admin.Session.Frames
import Q2Admin.Session.Roster
import Q2Admin.Loop.PollTable

/-!
# The size of the poll table

Library `Q2Admin.Loop`. `RunServer` allocates the table once, for the number of servers and
five bytes more. The table never outgrows it in runs that accept a connection only while a
slot is left; removing a connection never makes the table longer.
-/

namespace Q2Admin

open Exec

variable {N : Nat}

/-- `sizeof(struct pollfd)`. -/
def pollFdSize : Nat := 8

/-- The whole entries in the block that `RunServer` allocates for `n` servers;
`server.c:573`. -/
def pollCapacity (n : Nat) : Nat := (n * pollFdSize + 5) / pollFdSize

/-- The five bytes more hold no entry. -/
theorem pollCapacity_eq (n : Nat) : pollCapacity n = n := by
  unfold pollCapacity pollFdSize
  omega

/-- The table fits into so many slots, also when it is rebuilt, and the slots behind them are
as `t` says. -/
structure Fits (capacity : Nat) (t : Nat → PollFd) (w : World N) : Prop where
  online : w.core.roster.length < capacity
  count : w.socketCount ≤ capacity
  behind : ∀ i, capacity ≤ i → w.sockets i = t i

-- The poll table and who is connected.
private def World.standing (w : World N) : (Nat → PollFd) × Nat × (Fin N → Bool) :=
  (w.sockets, w.socketCount, fun s ↦ (w.servers s).connected)

private theorem roster_length_le {k k' : Core N}
    (h : ∀ s, (k'.records s).connected = true → (k.records s).connected = true) :
    k'.roster.length ≤ k.roster.length := by
  unfold Core.roster Core.online
  rw [List.length_map, List.length_map, ← List.countP_eq_length_filter,
    ← List.countP_eq_length_filter]
  exact List.countP_mono_left fun s _ ↦ h s

section Preserved

variable {capacity : Nat} {t : Nat → PollFd}

private theorem fits_of_standing {w w' : World N} (h : w'.standing = w.standing)
    (hw : Fits capacity t w) : Fits capacity t w' where
  online := by
    have hc := congrArg (fun p ↦ p.2.2) h
    refine Nat.lt_of_le_of_lt (roster_length_le fun s hs ↦ ?_) hw.online
    exact (congrFun hc s).symm.trans hs
  count := (congrArg (fun p ↦ p.2.1) h : w'.socketCount = w.socketCount) ▸ hw.count
  behind i hi := (congrFun (congrArg Prod.fst h) i).trans (hw.behind i hi)

private theorem fits_keeps {α : Type} {x : M N α} (hx : Keeps World.standing x) :
    Preserves (Fits capacity t) x := fun w hw ↦ fits_of_standing (hx w) hw

private theorem fits_disconnect (q2 : Fin N) {f : Q2Server → Q2Server}
    (hf : ∀ s, (f s).connected = false) :
    Preserves (Fits capacity t) (modifyServer q2 f) := by
  intro w hw
  refine ⟨Nat.lt_of_le_of_lt (roster_length_le fun s hs ↦ ?_) hw.online, hw.count, hw.behind⟩
  have hs' : ((w.updateServer q2 f).servers s).connected = true := hs
  by_cases hq : s = q2
  · rw [hq, World.updateServer_self, hf] at hs'
    cases hs'
  · rw [World.updateServer_of_ne _ _ hq] at hs'
    exact hs'

private theorem fits_removeServerSocket :
    Preserves (Fits capacity t) (removeServerSocket : M N Unit) := by
  intro w hw
  obtain ⟨w', h, hcore⟩ := core_removeServerSocket w
  rw [final_of_ok h]
  have hcount : w'.socketCount = w.core.roster.length + 1 := by
    rw [← Core.rebuild_count, ← hcore]
    rfl
  have honline := hw.online
  have hroster : w'.core.roster.length ≤ w.core.roster.length := by
    rw [hcore]
    refine roster_length_le fun s hs ↦ ?_
    rwa [(rebuilt_rebuild _).connected] at hs
  refine ⟨by omega, by omega, fun i hi ↦ ?_⟩
  rw [(removeServerSocket_slots h).2 i (by omega)]
  exact hw.behind i hi

private theorem fits_logEvent (e : Event) : Preserves (Fits capacity t) (logEvent e : M N Unit) :=
  fits_keeps fun _ ↦ rfl

private theorem standing_assign (q2 : Fin N) {f : Q2Server → Q2Server}
    (hf : ∀ s, (f s).connected = s.connected) : Keeps World.standing (modifyServer q2 f) := by
  intro w
  have hc : (fun s ↦ ((w.updateServer q2 f).servers s).connected) =
      fun s ↦ (w.servers s).connected := by
    funext s
    by_cases hs : s = q2
    · rw [hs, World.updateServer_self, hf]
    · rw [World.updateServer_of_ne _ _ hs]
  exact congrArg (fun p ↦ (w.sockets, w.socketCount, p)) hc

private theorem fits_assign (q2 : Fin N) {f : Q2Server → Q2Server}
    (hf : ∀ s, (f s).connected = s.connected) : Preserves (Fits capacity t) (modifyServer q2 f) :=
  fits_keeps (standing_assign q2 hf)

private theorem fits_talks {α : Type} {x : M N α} (hx : Talks x) : Preserves (Fits capacity t) x :=
  fits_keeps fun w ↦ by
    have hs := hx.keeps w
    exact (congrArg World.standing hs :)

private theorem fits_change {c : Crypto} {q2 : Fin N} {P : Fin N → Prop} {w w' : World N}
    {S : Prop} (h : Change c q2 P S w w') (hw : Fits capacity t w) : Fits capacity t w' := by
  cases h with
  | @write s _ m => exact fits_assign s (f := fun r ↦ { r with msg := m }) (fun _ ↦ rfl) w hw
  | @send s _ => exact fits_talks (talks_sendBuffer c s) w hw
  | format strings index => exact fits_of_standing (w := w) rfl hw
  | ping count =>
    exact fits_assign q2 (f := fun r ↦
      { r with connection := { r.connection with pingCount := count } }) (fun _ ↦ rfl) w hw
  | tell tb =>
    exact fits_assign q2 (f := fun r ↦ { r with
      players := tb.players, playercount := tb.playercount, map := tb.map }) (fun _ ↦ rfl) w hw
  | check _ cipher =>
    refine fits_keeps (keeps_check c cipher (fun _ _ _ ↦ rfl) (fun _ _ ↦ rfl) (fun _ _ ↦ rfl)
      fun f hf ↦ standing_assign q2 fun s ↦ ?_) w hw
    exact (congrArg Q2Server.connected (hf s) :)
  | close =>
    exact preserves_closeConnection (fun _ _ ↦ fits_logEvent _) (fun _ ↦ fits_logEvent _)
      (fits_disconnect q2 fun _ ↦ rfl) fits_removeServerSocket w hw

private theorem fits_execAll (c : Crypto) (q2 : Fin N) (cmds : List Command) :
    Preserves (Fits capacity t) (forM cmds (exec c q2)) :=
  (moves_execAll c q2 (P := fun _ ↦ True) (fun _ ↦ trivial) trivial cmds).preserves
    fun _ _ hc hw ↦ fits_change hc hw

private theorem fits_turnAway (i : Nat) : Preserves (Fits capacity t) (turnAway i : M N Unit) :=
  preserves_bind (fun _ hw ↦ hw) fun _ ↦ preserves_bind (fits_logEvent _) fun _ ↦
    fits_removeServerSocket

private theorem fits_hangUp (owner : Option (Fin N)) (i : Nat) :
    Preserves (Fits capacity t) (hangUp owner i) := by
  cases owner with
  | none => exact fun _ hw ↦ hw
  | some q2 =>
    refine preserves_bind (fits_disconnect q2 fun _ ↦ rfl) fun _ ↦ ?_
    exact preserves_bind (fun _ hw ↦ hw) fun _ ↦ preserves_bind (fits_logEvent _) fun _ ↦
      fits_removeServerSocket

end Preserved

/-- The next step accepts a connection only if a slot is left for it. -/
def HasRoom (c : Crypto) (m : Move) (w : World N) : Prop :=
  (moveEffect c m w).isAccept = true → w.socketCount < pollCapacity N

instance (c : Crypto) (m : Move) (w : World N) : Decidable (HasRoom c m w) :=
  inferInstanceAs (Decidable (_ → _))

private theorem fits_turn {c : Crypto} {env : Answer} {i capacity : Nat} {t : Nat → PollFd}
    {w w' : World N} (h : Turn c env i w w') (hwf : w.core.Wf) (hi : i < w.socketCount)
    (hroom : (w.effect c env i).isAccept = true → w.socketCount < capacity)
    (hw : Fits capacity t w) : Fits capacity t w' := by
  have hreceived (m : MsgBuffer) : Fits capacity t { w.receiving env.recv i with msg := m } :=
    fits_of_standing (w := w) rfl hw
  -- Who has said HELLO has a slot, and the other connected servers have theirs.
  have hregistered {q2 : Fin N} {h : Hello} {m : MsgBuffer} {found : Option (Fin N)}
      {w₁ : World N} (slot : w.Client i) (owner : w.getServer i = none)
      (greeting : w.greeting env i = some (q2, h, m))
      (register : (registerHello c env.hello i h).run { w.receiving env.recv i with msg := m } =
        .ok found w₁) : Fits capacity t w₁ := by
    have hslots := (indifferent_slots.registerHello c env.hello i h).ok register
    have hcount : w₁.socketCount = w.socketCount := congrArg (fun p ↦ p.2.2.1) hslots
    have hwf₁ : w₁.core.Wf := by
      rw [core_register greeting register]
      exact Core.wf_bind hwf q2 _ _ (slot.inTable hwf hi) (getServer_none owner)
    refine ⟨Nat.lt_of_lt_of_le hwf₁.roster_lt ?_, hcount.trans_le hw.count, fun n hn ↦ ?_⟩
    · exact hcount.trans_le hw.count
    · exact (congrFun (congrArg (fun p ↦ p.2.1) hslots) n).trans (hw.behind n hn)
  cases h with
  | idle same => exact same ▸ hw
  | accept fd ready slot accepted run =>
    have hlt : w.socketCount < capacity := by
      apply hroom
      unfold World.effect
      rw [if_neg (by simp [ready]), if_pos slot, accepted]
      rfl
    cases run
    exact ⟨hw.online, hlt, fun n hn ↦
      (Function.update_of_ne (Nat.ne_of_gt (Nat.lt_of_lt_of_le hlt hn)) _ w.sockets).trans
        (hw.behind n hn)⟩
  | hangUp q2 _ _ _ run =>
    rw [← final_of_ok run]
    exact fits_hangUp _ i _ (fits_of_standing (w := w) rfl hw)
  | message q2 cmds m _ _ _ run =>
    rw [← final_of_ok run]
    exact fits_execAll c q2 cmds _ (fits_of_standing (w := w) rfl hw)
  | peer request m _ _ _ run =>
    rw [← final_of_ok run]
    exact preserves_bind (fits_keeps (keeps_answerPeer c i request fun _ _ _ ↦ rfl))
      (fun _ ↦ fits_removeServerSocket) _ (hreceived m)
  | stranger m _ _ _ run =>
    rw [← final_of_ok run]
    exact fits_turnAway i _ (hreceived m)
  | refused q2 h m w₁ slot owner greeting _ register run =>
    rw [← final_of_ok run]
    exact fits_turnAway i _ (hregistered slot owner greeting register)
  | hello q2 h m w₁ cmds m' slot owner greeting _ _ register run =>
    rw [← final_of_ok run]
    exact fits_execAll c q2 cmds _
      (fits_of_standing (w := w₁) rfl (hregistered slot owner greeting register))

/-- With at least one server loaded, the table fits its block in runs that accept a connection only
if a slot is left for it. -/
theorem fits_run {c : Crypto} {rows : Fin N → Row} {listener : Nat} {junk : Nat → PollFd}
    {ms : List Move} {w : World N} (hN : 0 < N)
    (hrun : Run (step c) (HasRoom c) ms (initial rows listener junk) w) :
    Fits (pollCapacity N) junk w := by
  have hcapacity := pollCapacity_eq N
  have hstart : Fits (pollCapacity N) junk (initial rows listener junk) := by
    have honline : (initial rows listener junk).core.roster.length < 1 :=
      (wf_initial rows listener junk).roster_lt
    refine ⟨by omega, ?_, fun i hi ↦ Function.update_of_ne (by omega) _ junk⟩
    rw [hcapacity]
    exact hN
  have h := hrun.invariant
    (I := fun w ↦ w.core.Wf ∧ Fits (pollCapacity N) junk w) (fun m w w' hroom hs hw ↦ ?_)
    ⟨wf_initial rows listener junk, hstart⟩
  · exact h.2
  refine ⟨?_, ?_⟩
  · rw [core_step hs]
    exact Core.wf_run hw.1 (effect_valid hs hw.1)
  cases m with
  | poll ready =>
    rw [step_poll hs]
    have hcount := hw.2.count
    exact ⟨hw.2.online, hcount, fun i hi ↦ (if_neg (by omega)).trans (hw.2.behind i hi)⟩
  | serve env =>
    obtain ⟨w₁, hturn, rfl⟩ := step_turn hs
    have hscan := (step_serve hs).1.1
    exact fits_of_standing (w := w₁) rfl (fits_turn hturn hw.1 hscan hroom hw.2)

/-- With at least one server loaded, in runs that accept a connection only if a slot is left for
it, the table never outgrows the block that was allocated for it, and what lies behind the
block is as `malloc` left it. -/
theorem poll_table_fits (c : Crypto) (rows : Fin N → Row) (listener : Nat) (junk : Nat → PollFd)
    (ms : List Move) (w : World N) (hN : 0 < N)
    (hrun : Run (step c) (HasRoom c) ms (initial rows listener junk) w) :
    w.socketCount ≤ pollCapacity N ∧ ∀ i, pollCapacity N ≤ i → w.sockets i = junk i :=
  ⟨(fits_run hN hrun).count, (fits_run hN hrun).behind⟩

-- Two registered servers, and what `malloc` has left.
private def sampleTwo : World 2 :=
  initial (fun s ↦ ⟨1, s.val.toUInt32, 0, ascii "s", ascii "h", 27910, true⟩) 3
    fun _ ↦ ⟨9, false, false⟩

/-- A client is accepted into the slot behind the listener. -/
theorem poll_table_fits_sample :
    ∃ w : World 2, w.socketCount = 2 ∧ w.socketCount ≤ pollCapacity 2 ∧
      ∀ i, pollCapacity 2 ≤ i → w.sockets i = ⟨9, false, false⟩ := by
  have h : (follow (step Crypto.clear) (HasRoom Crypto.clear) [.poll [3], .accepting 4]
      sampleTwo).any (fun w ↦ w.socketCount == 2) = true := by decide +kernel
  obtain ⟨w, hrun, hw⟩ := Run.exists_of_follow h
  exact ⟨w, beq_iff_eq.mp hw, poll_table_fits _ _ _ _ _ w (by decide) hrun⟩

/-- With one server loaded the first connection has no slot. -/
theorem poll_table_overruns :
    ¬ ∀ (ms : List Move) (w : World 1), Run (step Crypto.clear) Unguarded ms sampleStart w →
      w.socketCount ≤ pollCapacity 1 := by
  have h : (follow (step Crypto.clear) Unguarded [.poll [3], .accepting 4] sampleStart).any
      (fun w ↦ w.socketCount == 2) = true := by decide +kernel
  obtain ⟨w, hrun, hw⟩ := Run.exists_of_follow h
  intro hall
  have hle := hall _ w hrun
  rw [beq_iff_eq.mp hw, pollCapacity_eq] at hle
  omega

end Q2Admin
