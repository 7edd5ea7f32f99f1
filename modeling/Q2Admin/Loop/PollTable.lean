import Q2Admin.Session.Refinement
import Q2Admin.Session.Sockets
import Q2Admin.Session.Sends
import Mathlib.Logic.ExistsUnique

/-!
# The poll table over whole runs

Library `Q2Admin.Loop`. The table and the server records agree in every state of every
run. No accepted socket is missing from the table, and none stands in it twice, as long
as the table is only rebuilt when every other socket is claimed by a server.
-/

namespace Q2Admin

open Exec

variable {N : Nat}

/-- The poll table and the server records agree. -/
structure World.Agree (w : World N) : Prop where
  listener : (w.sockets 0).fd = w.listener
  slot : ∀ s, (w.servers s).connected = true →
    1 ≤ (w.servers s).index ∧ (w.servers s).index < w.socketCount ∧
      (w.sockets (w.servers s).index).fd = (w.servers s).socket
  distinct : ∀ s t, (w.servers s).connected = true → (w.servers t).connected = true →
    (w.servers s).index = (w.servers t).index → s = t
  idle : ∀ s, (w.servers s).connected = false → (w.servers s).index = 0

private theorem World.agree_of_wf {w : World N} (h : w.core.Wf) : w.Agree where
  listener := h.listener
  slot s hs := ⟨(h.slot s hs).1.1, (h.slot s hs).1.2, (h.slot s hs).2⟩
  distinct := h.inj
  idle := h.idle

/-- The owner of a slot is connected on the socket in it. -/
theorem World.Agree.owner {w : World N} (h : w.Agree) {i : Nat} (hi : 1 ≤ i) {s : Fin N}
    (hs : w.getServer i = some s) :
    (w.servers s).connected = true ∧ (w.servers s).socket = (w.sockets i).fd := by
  have hidx := getServer_some hs
  have hc : (w.servers s).connected = true := by
    by_contra hc
    have hz := h.idle s (Bool.eq_false_iff.mpr hc)
    omega
  obtain ⟨_, _, hfd⟩ := h.slot s hc
  rw [hidx] at hfd
  exact ⟨hc, hfd.symm⟩

/-- In every state that the loop reaches the table and the records agree; hence a slot's
owner is connected on the socket in the slot, and `SendBuffer` writes to the socket of its
server only. -/
theorem table_agrees (c : Crypto) (rows : Fin N → Row) (listener : Nat) (junk : Nat → PollFd)
    (ms : List Move) (w : World N)
    (hrun : Run (step c) Unguarded ms (initial rows listener junk) w) :
    w.Agree ∧
    (∀ i s, 1 ≤ i → w.getServer i = some s →
      (w.servers s).connected = true ∧ (w.servers s).socket = (w.sockets i).fd) ∧
    ∀ s, ∃ l, (final (sendBuffer c s) w).sends = l ++ w.sends ∧
      ∀ e ∈ l, ∃ plain wire, e = .sent (w.servers s).socket plain wire := by
  have hagree := World.agree_of_wf (hrun.wf rows listener junk)
  refine ⟨hagree, fun i s hi hs ↦ hagree.owner hi hs, fun s ↦ ?_⟩
  obtain ⟨l, hl, hto⟩ := sendsTo_final c s w
  refine ⟨l, hl, fun e he ↦ ?_⟩
  obtain ⟨hc, plain, wire, hsent⟩ := hto e he
  have hfd : w.wireOf s = (w.servers s).socket := (hagree.slot s hc).2.2
  rw [hfd] at hsent
  exact ⟨plain, wire, hsent⟩

/-- An answer of the environment to one slot, with a HELLO's signature and challenge. -/
def Answer.sample (accept : Option Nat) (recv : Recv) : Answer where
  accept := accept
  recv := recv
  hello :=
    { keyFile := .holds [7], challenge := strncpy 16 [1, 2, 3, 4, 5, 6, 7, 8, 9, 10, 11, 12, 13,
        14, 15, 16], sign := fun _ ↦ .signed [42], aeskey := .zero 16, iv := .zero 16,
      aeskeyCipher := .zero 256 }

/-- Serve a slot that is not ready. -/
def Move.skip : Move := .serve (.sample none .failed)

/-- Serve the listener's slot, which is ready. -/
def Move.accepting (fd : Nat) : Move := .serve (.sample (some fd) .failed)

/-- Serve a slot whose socket has received these bytes. -/
def Move.receiving (bytes : List UInt8) (h : bytes.length ≤ msgSize) : Move :=
  .serve (.sample none (.packet ⟨bytes, h⟩))

/-- The start with one server, whose key is 5; the listener is descriptor 3. -/
def sampleStart : World 1 :=
  initial (fun _ ↦ ⟨1, 5, 0, ascii "s", ascii "h", 27910, true⟩) 3 fun _ ↦ ⟨0, false, false⟩

/-- The first message of a server with key 5. -/
def sampleHello : List UInt8 :=
  [0x51, 0x32, 0x41, 0x43, 1, 5, 0, 0, 0, 1, 0, 0, 0, 6, 109, 8, 0] ++ List.replicate 16 1

/-- The HELLO of the sample fits the buffer. -/
theorem sampleHello_length_le : sampleHello.length ≤ msgSize := by decide

/-- The server of the sample is bound, and its slot is up next. -/
def sampleBound : List Move :=
  [.poll [3], .accepting 4, .skip, .poll [4], .skip, .receiving sampleHello sampleHello_length_le,
    .poll [4], .skip]

/-- A server has said HELLO. -/
theorem table_agrees_sample :
    ∃ w : World 1, (w.servers 0).connected = true ∧ w.Agree := by
  have h : (follow (step Crypto.clear) Unguarded [.poll [3], .accepting 4, .skip, .poll [4], .skip,
      .receiving sampleHello sampleHello_length_le] sampleStart).any
        (fun w ↦ (w.servers 0).connected) = true := by decide +kernel
  obtain ⟨w, hrun, hw⟩ := Run.exists_of_follow h
  exact ⟨w, hw, (table_agrees _ _ _ _ _ w hrun).1⟩

/-- The next step answers the HELLO of a registered server that it serves, if any. -/
def Answering (c : Crypto) (m : Move) (w : World N) : Prop := (moveEffect c m w).Answered

/-- The loop starts tidy. -/
theorem tidy_initial (rows : Fin N → Row) (listener : Nat) (junk : Nat → PollFd) :
    (initial rows listener junk).core.Tidy where
  toWf := wf_initial rows listener junk
  distinct i j hi hj _ := by
    have hi0 : i = 0 := Nat.lt_one_iff.mp hi
    have hj0 : j = 0 := Nat.lt_one_iff.mp hj
    rw [hi0, hj0]
  alive i hi := by
    have h1 : i < 1 := hi.2
    have h2 : 1 ≤ i := hi.1
    omega

/-- In runs of answering steps no descriptor stands in two slots, and no closed one stands in
the table. -/
theorem sockets_apart (c : Crypto) (rows : Fin N → Row) (listener : Nat)
    (junk : Nat → PollFd) (ms : List Move) (w : World N)
    (hrun : Run (step c) (Answering c) ms (initial rows listener junk) w) :
    (∀ i j, i < w.socketCount → j < w.socketCount → (w.sockets i).fd = (w.sockets j).fd →
      i = j) ∧
    ∀ i, 1 ≤ i → i < w.socketCount → isOpen (w.sockets i).fd w.trace = true := by
  have htidy := (hrun.core_invariant (I := Core.Tidy) (fun m w hg _ hv ht ↦ Core.tidy_run ht hv hg)
    (wf_initial rows listener junk) (tidy_initial rows listener junk)).2
  refine ⟨htidy.distinct, fun i h1 hi ↦ ?_⟩
  rw [← isOpen_filter]
  exact htidy.alive i ⟨h1, hi⟩

/-- The socket stands in exactly one slot of the table. -/
def World.Listed (w : World N) (fd : Nat) : Prop :=
  ∃! i, (1 ≤ i ∧ i < w.socketCount) ∧ (w.sockets i).fd = fd

/-- The next step rebuilds the table only if every other slot is claimed by a server that
does not lose it in the step, it answers a HELLO that it binds, and it knows the request
of a peer. -/
def Saving (c : Crypto) (m : Move) (w : World N) : Prop := (moveEffect c m w).Saving w.core

private theorem full_initial (rows : Fin N → Row) (listener : Nat) (junk : Nat → PollFd) :
    (initial rows listener junk).core.Full where
  toTidy := tidy_initial rows listener junk
  present _ hfd := by cases hfd

/-- In runs of saving steps every accepted socket that has not been closed stands in exactly
one slot. -/
theorem no_socket_lost (c : Crypto) (rows : Fin N → Row) (listener : Nat) (junk : Nat → PollFd)
    (ms : List Move) (w : World N)
    (hrun : Run (step c) (Saving c) ms (initial rows listener junk) w) (fd : Nat)
    (hfd : isOpen fd w.trace = true) : w.Listed fd := by
  have hfull := (hrun.core_invariant (I := Core.Full) (fun m w hg _ hv hf ↦ Core.full_run hf hv hg)
    (wf_initial rows listener junk) (full_initial rows listener junk)).2
  rw [← isOpen_filter] at hfd
  obtain ⟨i, hi, huniq⟩ := hfull.existsUnique hfd
  exact ⟨i, hi, fun j hj ↦ huniq j hj.1 hj.2⟩

instance (c : Crypto) (m : Move) (w : World N) : Decidable (Saving c m w) :=
  inferInstanceAs (Decidable ((moveEffect c m w).Saving w.core))

/-- A connection is kept while another one is closed. -/
theorem no_socket_lost_sample :
    ∃ w : World 1, isOpen 4 w.trace = true ∧ isOpen 5 w.trace = false ∧ w.Listed 4 := by
  have h : (follow (step Crypto.clear) (Saving Crypto.clear) [.poll [3], .accepting 4, .skip,
      .poll [4], .skip, .receiving sampleHello sampleHello_length_le, .poll [3], .accepting 5,
      .skip, .skip, .poll [5], .skip, .skip, .receiving [0] (by decide)] sampleStart).any
        (fun w ↦ isOpen 4 w.trace && !isOpen 5 w.trace) = true := by decide +kernel
  obtain ⟨w, hrun, hw⟩ := Run.exists_of_follow h
  obtain ⟨h4, h5⟩ := Bool.and_eq_true_iff.mp hw
  exact ⟨w, h4, by simpa using h5, no_socket_lost _ _ _ _ _ w hrun 4 h4⟩

/-- A pending socket is lost when another one sends a first message that is not known. -/
theorem pending_socket_lost :
    ¬ ∀ (ms : List Move) (w : World 1), Run (step Crypto.clear) Unguarded ms sampleStart w →
      ∀ fd, isOpen fd w.trace = true → w.Listed fd := by
  have h : (follow (step Crypto.clear) Unguarded [.poll [3], .accepting 4, .skip, .poll [3],
      .accepting 5, .skip, .skip, .poll [4], .skip, .receiving [0] (by decide)] sampleStart).any
        (fun w ↦ isOpen 5 w.trace && w.socketCount == 1) = true := by decide +kernel
  obtain ⟨w, hrun, hw⟩ := Run.exists_of_follow h
  obtain ⟨hopen, hcount⟩ := Bool.and_eq_true_iff.mp hw
  intro hall
  obtain ⟨i, ⟨⟨h1, h2⟩, _⟩, _⟩ := hall _ w hrun 5 hopen
  rw [beq_iff_eq.mp hcount] at h2
  omega

end Q2Admin
