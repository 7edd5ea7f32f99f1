import Q2Admin.Session.Trust
import Q2Admin.Command.Frame
import Q2Admin.Loop.PollTable

/-!
# Trust over whole runs

Library `Q2Admin.Loop`. A HELLO for a server that is still trusted hands the trusted record
to the socket it came on, and a socket that a refused HELLO has closed under its server leaves
its number in the poll table, where it comes to stand for the next connection that gets it.
Runs without either keep trust with the connection that earned it, and runs in which no other
socket says HELLO with a server's key leave the server in possession of its session.
-/

namespace Q2Admin

open Exec

variable {N : Nat}

private theorem of_filter_eq_append {p : Event → Bool} {l a b : List Event} {e : Event}
    (h : l.filter p = a ++ e :: b) :
    ∃ a' b', l = a' ++ e :: b' ∧ a'.filter p = a ∧ b'.filter p = b := by
  obtain ⟨l₁, l₂, rfl, ha, hl₂⟩ := List.filter_eq_append_iff.mp h
  obtain ⟨l₃, b', rfl, hno, _, hb⟩ := List.filter_eq_cons_iff.mp hl₂
  refine ⟨l₁ ++ l₃, b', by rw [List.append_assoc], ?_, hb⟩
  rw [List.filter_append, ha, List.filter_eq_nil_iff.mpr hno, List.append_nil]

private theorem isSession_of_parts {s fd : Nat} {e : Event} (h : e.parts s fd = true) :
    e.isSession = true := by
  cases e with
  | bound | closed | accepted => rfl
  | _ => cases h

/-- Only session events tell who has verified itself. -/
theorem verifiedOn_of_filter {s fd : Nat} {t : List Event}
    (h : VerifiedOn s fd (t.filter Event.isSession)) : VerifiedOn s fd t := by
  rcases h with ⟨t₁, t₂, t₃, ht, hno⟩
  obtain ⟨u₁, u, rfl, h₁, hu⟩ := of_filter_eq_append ht
  obtain ⟨u₂, u₃, rfl, h₂, _⟩ := of_filter_eq_append hu
  refine ⟨u₁, u₂, u₃, rfl, fun e he ↦ Bool.eq_false_iff.mpr fun hparts ↦ ?_⟩
  have hmem : e ∈ t₁ ++ t₂ := by
    rw [← h₁, ← h₂, ← List.filter_append]
    exact List.mem_filter.mpr ⟨he, isSession_of_parts hparts⟩
  rw [hno e hmem] at hparts
  cases hparts

/-- The next step is no HELLO for a server whose record is still trusted. -/
def NoTrustedHello (c : Crypto) (m : Move) (w : World N) : Prop :=
  (moveEffect c m w).Untrusted w.core

/-- The next step accepts no number that stands in the poll table already. -/
def NoListedAccept (c : Crypto) (m : Move) (w : World N) : Prop :=
  (moveEffect c m w).Unlisted w.core

/-- `recv` fails on a socket that is not open. -/
def RecvOpen : Move → World N → Prop
  | .poll _, _ => True
  | .serve env, w => env.recv = .failed ∨ isOpen (w.sockets w.scan).fd w.trace = true

/-- What trust relies on in the next step. -/
structure Trustworthy (c : Crypto) (m : Move) (w : World N) : Prop where
  hello : NoTrustedHello c m w
  accept : NoListedAccept c m w
  recv : RecvOpen m w

private theorem sessionOps_of_blank (c : Crypto) (s : Q2Server) {n : Nat} {m m' : MsgBuffer}
    {cmds : List Command} (hm : m.data = []) (h : (readCommands n).run m = .ok cmds m') :
    sessionOps c s cmds = [] := by
  induction n generalizing m cmds with
  | zero =>
    cases h
    rfl
  | succ n ih =>
    rcases readCommands_ok h with ⟨_, rfl⟩ | ⟨_, cmd, rest, m₁, hcmd, hrest, rfl⟩
    · rfl
    · obtain ⟨_, ⟨f, _, rfl, rfl⟩, hstands, rfl⟩ := (decodes_command m cmd m₁).mp hcmd
      have hhead : f.head = 0 := by
        have hbyte := (stands_singleton.mp (stands_cons.mp hstands).1).2
        unfold MsgBuffer.byteAt at hbyte
        rw [hm] at hbyte
        exact hbyte.symm
      have hquiet : f.command'.sessionOp c s = none := by
        cases f with
        | auth => cases hhead
        | quit => cases hhead
        | _ => rfl
      have hdata : (m.advance f.wire.length).data = [] := (m.advance_data _).trans hm
      unfold sessionOps
      rw [List.filterMap_cons, hquiet]
      exact ih hdata hrest

/-- A `recv` that has failed leaves nothing to act upon. -/
theorem messageOps_failed (c : Crypto) (s : Q2Server) :
    s.messageOps c Recv.failed.buffer = [] := by
  have hdata : (s.plainMessage c Recv.failed.buffer).data = [] := by
    unfold Q2Server.plainMessage
    cases s.secure with
    | false => rfl
    | true => rfl
  unfold Q2Server.messageOps Q2Server.commands
  split
  · next hread => exact sessionOps_of_blank c s hdata hread
  · rfl

private theorem onOpenSocket_of_recv (c : Crypto) {m : Move} {w : World N} (h : RecvOpen m w) :
    (moveEffect c m w).OnOpenSocket w.core := by
  cases m with
  | poll ready => trivial
  | serve env =>
    have hfilter (ho : isOpen (w.sockets w.scan).fd w.trace = true) :
        isOpen (w.core.fds w.scan) w.core.trace = true := (isOpen_filter _ _).trans ho
    unfold moveEffect World.effect
    dsimp only
    split
    · trivial
    split
    · split
      · trivial
      · trivial
    split
    · split
      · trivial
      · intro hops
        rcases h with hf | ho
        · rw [hf] at hops
          exact absurd (messageOps_failed c _) hops
        · exact hfilter ho
    · unfold World.firstEffect
      rcases h with hf | ho
      · rw [hf]
        trivial
      · split
        · trivial
        · trivial
        · trivial
        · split
          · trivial
          · exact hfilter ho

private theorem trusting_initial (rows : Fin N → Row) (listener : Nat) (junk : Nat → PollFd) :
    (initial rows listener junk).core.Trusting where
  apart _ _ hs := by cases hs
  bound _ hs := by cases hs
  verified _ hs := by cases hs
  distinct i _ hi := by
    have h1 : 1 ≤ i := hi.1
    have h2 : i < 1 := hi.2
    omega

/-- In runs without a HELLO for a trusted server and without an accept of a number that the poll
table still holds, a connected and trusted server has been verified on the socket that it has
now: after the HELLO that bound the socket to it, and on the same connection. -/
theorem trust_per_connection (c : Crypto) (rows : Fin N → Row) (listener : Nat)
    (junk : Nat → PollFd) (ms : List Move) (w : World N)
    (hrun : Run (step c) (Trustworthy c) ms (initial rows listener junk) w) (s : Fin N)
    (hc : (w.servers s).connected = true) (ht : (w.servers s).trusted = true) :
    VerifiedOn s (w.servers s).socket w.trace := by
  have htrust := (hrun.core_invariant (I := Core.Trusting)
    (fun m w hg hw hv hk ↦
      Core.trusting_run hw hk hv hg.hello hg.accept (onOpenSocket_of_recv c hg.recv))
    (wf_initial rows listener junk) (trusting_initial rows listener junk)).2
  exact verifiedOn_of_filter (htrust.verified s hc ht)

instance (k : Core N) : (e : Effect N) → Decidable (e.Untrusted k)
  | .idle | .accept _ | .hangUp _ _ | .reject _ | .peer _ _ | .message _ _ _ =>
    inferInstanceAs (Decidable True)
  | .hello q2 _ _ _ _ => inferInstanceAs (Decidable ((k.records q2).trusted = false))

instance (k : Core N) : (e : Effect N) → Decidable (e.Unlisted k)
  | .idle | .hangUp _ _ | .reject _ | .peer _ _ | .hello _ _ _ _ _ | .message _ _ _ =>
    inferInstanceAs (Decidable True)
  | .accept fd =>
    decidable_of_iff (∀ i ∈ List.range k.count, 1 ≤ i → k.fds i ≠ fd)
      ⟨fun h i hi ↦ h i (List.mem_range.mpr hi.2) hi.1,
        fun h i hi hi1 ↦ h i ⟨hi1, List.mem_range.mp hi⟩⟩

instance : (m : Move) → (w : World N) → Decidable (RecvOpen m w)
  | .poll _, _ => inferInstanceAs (Decidable True)
  | .serve ⟨_, .failed, _⟩, _ => .isTrue (.inl rfl)
  | .serve ⟨_, .packet _, _⟩, w =>
    decidable_of_iff (isOpen (w.sockets w.scan).fd w.trace = true)
      ⟨.inr, fun h ↦ h.resolve_left fun hf ↦ by cases hf⟩

instance (c : Crypto) (m : Move) (w : World N) : Decidable (Trustworthy c m w) :=
  decidable_of_iff ((moveEffect c m w).Untrusted w.core ∧ (moveEffect c m w).Unlisted w.core ∧
      RecvOpen m w)
    ⟨fun h ↦ ⟨h.1, h.2.1, h.2.2⟩, fun h ↦ ⟨h.hello, h.accept, h.recv⟩⟩

/-- An AUTH that signs the challenge of the sample answers with the sample key. -/
def sampleAuth : List UInt8 :=
  [13, 17, 0, 7, 1, 2, 3, 4, 5, 6, 7, 8, 9, 10, 11, 12, 13, 14, 15, 16]

/-- The AUTH of the sample fits the buffer. -/
theorem sampleAuth_length_le : sampleAuth.length ≤ msgSize := by decide

/-- A server says HELLO on socket 4 and answers its challenge. -/
def sampleSession : List Move :=
  [.poll [3], .accepting 4, .skip, .poll [4], .skip, .receiving sampleHello sampleHello_length_le,
    .poll [4], .skip, .receiving sampleAuth sampleAuth_length_le]

/-- A server quits before it is trusted, comes back on a connection that gets the same number
and answers its challenge there. -/
theorem trust_per_connection_sample :
    ∃ w : World 1, (w.servers 0).trusted = true ∧ .closed (w.servers 0).socket ∈ w.trace ∧
      VerifiedOn 0 (w.servers 0).socket w.trace := by
  have h : (follow (step Crypto.clear) (Trustworthy Crypto.clear) (sampleBound ++
      [.receiving [2] (by decide), .poll [3], .accepting 4,
        .receiving sampleHello sampleHello_length_le, .poll [4], .skip,
        .receiving sampleAuth sampleAuth_length_le]) sampleStart).any
      (fun w ↦ (w.servers 0).connected && (w.servers 0).trusted &&
        w.trace.contains (.closed (w.servers 0).socket)) = true := by decide +kernel
  obtain ⟨w, hrun, hw⟩ := Run.exists_of_follow h
  rw [Bool.and_eq_true, Bool.and_eq_true] at hw
  rcases hw with ⟨⟨hc, ht⟩, hclosed⟩
  exact ⟨w, ht, List.contains_iff_mem.mp hclosed,
    trust_per_connection _ _ _ _ _ w hrun 0 hc ht⟩

/-- The trusted server quits, and whoever then says HELLO with its key is trusted. -/
theorem trust_inherited :
    ¬ ∀ (ms : List Move) (w : World 1), Run (step Crypto.clear) Unguarded ms sampleStart w →
      ∀ s, (w.servers s).connected = true → (w.servers s).trusted = true →
        VerifiedOn s (w.servers s).socket w.trace := by
  -- Slot 1 still has the `revents` of the closed socket, so the new one is read in the same scan.
  have h : (follow (step Crypto.clear) Unguarded (sampleSession ++
      [.poll [4], .skip, .receiving [2] (by decide), .poll [3], .accepting 5,
        .receiving sampleHello sampleHello_length_le]) sampleStart).any
        (fun w ↦ (w.servers 0).connected && (w.servers 0).trusted &&
          !(w.trace.contains (.verified 0 (w.servers 0).socket))) = true := by decide +kernel
  obtain ⟨w, hrun, hw⟩ := Run.exists_of_follow h
  rw [Bool.and_eq_true, Bool.and_eq_true] at hw
  rcases hw with ⟨⟨hc, ht⟩, hno⟩
  intro hall
  obtain ⟨t₁, t₂, t₃, htrace, _⟩ := hall _ w hrun 0 hc ht
  have hmem : Event.verified 0 (w.servers 0).socket ∈ w.trace := by
    rw [htrace]
    exact List.mem_append_right _ List.mem_cons_self
  rw [List.contains_iff_mem.mpr hmem] at hno
  cases hno

/-- The next step serves no slot with the socket. -/
def ServesOthers (c : Crypto) (fd : Nat) (m : Move) (w : World N) : Prop :=
  (moveEffect c m w).Elsewhere fd w.core

/-- The next step is no HELLO with the key of the server. -/
def NoHelloFor (c : Crypto) (s : Fin N) (m : Move) (w : World N) : Prop :=
  (moveEffect c m w).Spares s

/-- The socket is open and stands in no slot but the server's. -/
structure World.Sole (w : World N) (s : Fin N) : Prop where
  alive : isOpen (w.servers s).socket w.trace = true
  slot : ∀ i, 1 ≤ i → i < w.socketCount → (w.sockets i).fd = (w.servers s).socket →
    i = (w.servers s).index

/-- Between two states the server keeps its session on a socket, and in the second one
messages on the socket are dispatched to it. -/
structure World.Retains (w w' : World N) (s : Fin N) : Prop where
  connected : (w'.servers s).connected = true
  socket : (w'.servers s).socket = (w.servers s).socket
  index : 1 ≤ (w'.servers s).index ∧ (w'.servers s).index < w'.socketCount ∧
    (w'.sockets (w'.servers s).index).fd = (w.servers s).socket
  port : (w'.servers s).port = (w.servers s).port
  maxclients : (w'.servers s).maxclients = (w.servers s).maxclients
  dispatch : ∀ i, 1 ≤ i → i < w'.socketCount → (w'.sockets i).fd = (w.servers s).socket →
    w'.getServer i = some s

private theorem getServer_of_index {w : World N} (h : w.core.Wf) {s : Fin N}
    (hc : (w.servers s).connected = true) : w.getServer (w.servers s).index = some s := by
  cases ho : w.getServer (w.servers s).index with
  | none => exact absurd rfl (getServer_none ho s)
  | some t =>
    have hidx := getServer_some ho
    have ht : (w.servers t).connected = true :=
      h.connected_of_index (s := t) hidx (h.slot s hc).1.1
    rw [h.inj t s ht hc hidx]

private theorem held_of_sole {w : World N} {s : Fin N} (hc : (w.servers s).connected = true)
    (ht : (w.servers s).trusted = true) (hsole : w.Sole s) :
    w.core.Held s (w.servers s).socket (w.servers s).port (w.servers s).maxclients where
  connected := hc
  trusted := ht
  socket := rfl
  port := rfl
  maxclients := rfl
  alive := by
    change isOpen _ (w.trace.filter Event.isSession) = true
    rw [isOpen_filter]
    exact hsole.alive
  sole i hi he := hsole.slot i hi.1 hi.2 he

/-- A trusted server whose socket is open and stands in no other slot retains its session
whatever happens on other sockets, as long as no HELLO with its key comes on one of them. -/
theorem session_exclusive (c : Crypto) (rows : Fin N → Row) (listener : Nat)
    (junk : Nat → PollFd) (ms ms' : List Move) (w w' : World N) (s : Fin N)
    (hrun : Run (step c) Unguarded ms (initial rows listener junk) w)
    (hc : (w.servers s).connected = true) (ht : (w.servers s).trusted = true)
    (hsole : w.Sole s)
    (hothers : Run (step c)
      (fun m w₁ ↦ ServesOthers c (w.servers s).socket m w₁ ∧ NoHelloFor c s m w₁) ms' w w') :
    w.Retains w' s := by
  obtain ⟨hw, hheld⟩ := hothers.core_invariant
    (I := Core.Held s (w.servers s).socket (w.servers s).port (w.servers s).maxclients)
    (fun m w₁ hg hw hv hk ↦ Core.held_run hw hk hv hg.1 hg.2) (hrun.wf rows listener junk)
    (held_of_sole hc ht hsole)
  obtain ⟨⟨h1, h2⟩, h3⟩ := hw.slot s hheld.connected
  refine ⟨hheld.connected, hheld.socket, ⟨h1, h2, h3.trans hheld.socket⟩, hheld.port,
    hheld.maxclients, fun i hi1 hi2 hi3 ↦ ?_⟩
  rw [hheld.sole i ⟨hi1, hi2⟩ hi3]
  exact getServer_of_index hw hheld.connected

instance (fd : Nat) (k : Core N) : (e : Effect N) → Decidable (e.Elsewhere fd k)
  | .idle | .accept _ => inferInstanceAs (Decidable True)
  | .hangUp _ i | .reject i | .peer i _ | .hello _ i _ _ _ | .message _ i _ =>
    inferInstanceAs (Decidable (k.fds i ≠ fd))

instance (s : Fin N) : (e : Effect N) → Decidable (e.Spares s)
  | .idle | .accept _ | .hangUp _ _ | .reject _ | .peer _ _ | .message _ _ _ =>
    inferInstanceAs (Decidable True)
  | .hello q2 _ _ _ _ => inferInstanceAs (Decidable (q2 ≠ s))

instance (c : Crypto) (fd : Nat) (m : Move) (w : World N) : Decidable (ServesOthers c fd m w) :=
  inferInstanceAs (Decidable ((moveEffect c m w).Elsewhere fd w.core))

instance (c : Crypto) (s : Fin N) (m : Move) (w : World N) : Decidable (NoHelloFor c s m w) :=
  inferInstanceAs (Decidable ((moveEffect c m w).Spares s))

instance (w : World N) (s : Fin N) : Decidable (w.Sole s) :=
  decidable_of_iff (isOpen (w.servers s).socket w.trace = true ∧
      ∀ i ∈ List.range w.socketCount, 1 ≤ i → (w.sockets i).fd = (w.servers s).socket →
        i = (w.servers s).index)
    ⟨fun h ↦ ⟨h.1, fun i h1 h2 ↦ h.2 i (List.mem_range.mpr h2) h1⟩,
      fun h ↦ ⟨h.alive, fun i h2 h1 ↦ h.slot i h1 (List.mem_range.mp h2)⟩⟩

/-- A socket is accepted in the second slot and sends its first message. -/
def sampleIntruder (bytes : List UInt8) (h : bytes.length ≤ msgSize) : List Move :=
  [.poll [3], .accepting 5, .skip, .skip, .poll [5], .skip, .skip, .receiving bytes h]

/-- A trusted server keeps its session while another connection comes and goes. -/
theorem session_exclusive_sample :
    ∃ w w' : World 1, (w.servers 0).trusted = true ∧ isOpen 5 w'.trace = false ∧
      w.Retains w' 0 := by
  have h : (follow (step Crypto.clear) Unguarded sampleSession sampleStart).any (fun w ↦
      ((w.servers 0).connected && (w.servers 0).trusted && decide (w.Sole 0)) &&
        (follow (step Crypto.clear) (fun m w₁ ↦
          ServesOthers Crypto.clear (w.servers 0).socket m w₁ ∧ NoHelloFor Crypto.clear 0 m w₁)
          (sampleIntruder [0] (by decide)) w).any fun w' ↦ !isOpen 5 w'.trace) = true := by
    decide +kernel
  obtain ⟨w, hrun, hw⟩ := Run.exists_of_follow h
  obtain ⟨hw, h'⟩ := Bool.and_eq_true_iff.mp hw
  rw [Bool.and_eq_true, Bool.and_eq_true] at hw
  rcases hw with ⟨⟨hc, ht⟩, hsole⟩
  obtain ⟨w', hrun', hclosed⟩ := Run.exists_of_follow h'
  exact ⟨w, w', ht, by simpa using hclosed,
    session_exclusive _ _ _ _ _ _ w w' 0 hrun hc ht (of_decide_eq_true hsole) hrun'⟩

/-- A HELLO with the server's key on another socket takes the session away from it, although
that socket has not been verified. -/
theorem session_hijacked :
    ¬ ∀ (ms ms' : List Move) (w w' : World 1) (s : Fin 1),
      Run (step Crypto.clear) Unguarded ms sampleStart w →
      (w.servers s).connected = true → (w.servers s).trusted = true →
      Run (step Crypto.clear) (ServesOthers Crypto.clear (w.servers s).socket) ms' w w' →
      (∀ fd, fd ≠ (w.servers s).socket → Event.verified s fd ∉ w'.trace) →
      w.Retains w' s := by
  have h : (follow (step Crypto.clear) Unguarded sampleSession sampleStart).any (fun w ↦
      ((w.servers 0).connected && (w.servers 0).trusted && (w.servers 0).socket == 4) &&
        (follow (step Crypto.clear) (ServesOthers Crypto.clear (w.servers 0).socket)
          (sampleIntruder sampleHello sampleHello_length_le) w).any fun w' ↦
            (w'.servers 0).socket == 5 && w'.trace.all fun e ↦
              match e with
              | .verified _ fd => fd == 4
              | _ => true) = true := by
    decide +kernel
  obtain ⟨w, hrun, hw⟩ := Run.exists_of_follow h
  obtain ⟨hw, h'⟩ := Bool.and_eq_true_iff.mp hw
  rw [Bool.and_eq_true, Bool.and_eq_true] at hw
  rcases hw with ⟨⟨hc, ht⟩, h4⟩
  obtain ⟨w', hrun', hw'⟩ := Run.exists_of_follow h'
  obtain ⟨h5, hall⟩ := Bool.and_eq_true_iff.mp hw'
  intro hclaim
  have hno (fd : Nat) (hfd : fd ≠ (w.servers 0).socket) :
      Event.verified (0 : Fin 1) fd ∉ w'.trace := fun hmem ↦ by
    have hfd4 := List.all_eq_true.mp hall _ hmem
    rw [beq_iff_eq.mp h4] at hfd
    exact hfd (beq_iff_eq.mp hfd4)
  have hsocket := (hclaim _ _ w w' 0 hrun hc ht hrun' hno).socket
  rw [beq_iff_eq.mp h4, beq_iff_eq.mp h5] at hsocket
  cases hsocket

end Q2Admin
