import Q2Admin.Command.Frame
import Q2Admin.Session.Welcome
import Q2Admin.Loop.PeerList

/-!
# The output buffers

Library `Q2Admin.Loop`. Source `msg.c:69–112`, `server.c:317–342` and `crypto.c:94–119`. The
writers check no bound. What is written for a connected server is sent before the next command,
and it is short; what is written for a server that the message itself has disconnected piles up,
until its next HELLO. `buffers_bounded`: no buffer is overrun in a run in which what piles up fits.
-/

namespace Q2Admin

open Exec

variable {N : Nat} {c : Crypto} {q2 : Fin N} {w w' : World N}

/-- In every output buffer the cursor is where the contents end, and that is in the array. -/
def World.Bounded (w : World N) : Prop :=
  ∀ s, (w.servers s).msg.index = (w.servers s).msg.length ∧ (w.servers s).msg.length ≤ msgSize

/-- The handler of the command does what it prepares and then stores outside an array. That can
only be a writer behind the end of an output buffer, or the cipher behind that of the work buffer
of `SendBuffer`. -/
def World.Overruns (c : Crypto) (w : World N) (q2 : Fin N) (cmd : Command) : Prop :=
  (∃ w₁, (cmd.prepare c q2).run w = .ok () w₁) ∧
    ∃ w', (exec c q2 cmd).run w = .error .overwrite w'

/-- The loop of `ParseMessage` gets from the first state to a command of the server. In the second
one its handler has read it. -/
inductive Comes (c : Crypto) (q2 : Fin N) (cmd : Command) : World N → World N → Prop
  | next {v : World N} {m : MsgBuffer} (unread : v.msg.unread = true)
      (read : readCommand.run v.msg = .ok cmd m) : Comes c q2 cmd v { v with msg := m }
  | later {v v' w : World N} (unread : v.msg.unread = true)
      (round : (parseNext c q2).run v = .ok () v') (rest : Comes c q2 cmd v' w) :
      Comes c q2 cmd v w

/-- Serving the next slot enters the loop of `ParseMessage` for the server in the state `v`. -/
inductive Enters (c : Crypto) (env : Answer) (w : World N) (q2 : Fin N) (v : World N) : Prop
  /-- With a message from the owner of the slot. -/
  | message (slot : w.Client w.scan) (owner : w.getServer w.scan = some q2)
      (some : env.recv.buffer.length ≠ 0)
      (decrypt : (decryptMessage c q2).run (w.receiving env.recv w.scan) = .ok () v)
  /-- With the rest of the first message on a socket, behind its HELLO. -/
  | hello (h : Hello) (m : MsgBuffer) (w₁ : World N)
      (greeting : w.greeting env w.scan = some (q2, h, m))
      (register : (registerHello c env.hello w.scan h).run
        { w.receiving env.recv w.scan with msg := m } = .ok (some q2) w₁)
      (decrypt : (decryptMessage c q2).run w₁ = .ok () v)

/-- Serving the next slot, a peer asks for the list of servers. -/
def World.Asked (w : World N) (env : Answer) (m : MsgBuffer) : Prop :=
  w.Client w.scan ∧ w.getServer w.scan = none ∧
    readFirst.run env.recv.buffer = .ok (.peer peerGetServers) m

/-- Serving the next slot overruns no buffer: neither that of the list for a peer, nor those of
the servers, when a HELLO is answered and at every command that the loop of `ParseMessage` gets
to. -/
structure Answer.Safe (c : Crypto) (env : Answer) (w : World N) : Prop where
  peer : ∀ m, w.Asked env m → ∀ w', (pGetServerList c w.scan).run
    { w.receiving env.recv w.scan with msg := m } ≠ .error .overwrite w'
  hello : ∀ q2 h m, w.greeting env w.scan = some (q2, h, m) →
    (signClientChallenge env.hello h.challenge).1.length ≤ rsaLen →
    ∀ w', (registerHello c env.hello w.scan h).run
      { w.receiving env.recv w.scan with msg := m } ≠ .error .overwrite w'
  command : ∀ q2 v cmd w', Enters c env w q2 v → Comes c q2 cmd v w' →
    w'.Bounded ∧ ¬ w'.Overruns c q2 cmd

/-- What is written in the next turn fits: the list for a peer its buffer, the reply to a HELLO
the buffer in which it is put behind what is left, and so the reply to each command of a server
that is not connected. -/
structure Answer.Roomy (c : Crypto) (env : Answer) (w : World N) : Prop where
  peer : ∀ m, w.Asked env m → w.announcedSize ≤ msgSize
  hello : ∀ q2 h m, w.greeting env w.scan = some (q2, h, m) →
    (signClientChallenge env.hello h.challenge).1.length ≤ rsaLen →
    (w.servers q2).RoomFor env.hello h
  command : ∀ q2 v cmd w', Enters c env w q2 v → Comes c q2 cmd v w' → w'.HasRoom c q2 cmd

/-- The next step overruns no buffer. -/
def Safe (c : Crypto) : Move → World N → Prop
  | .poll _, _ => True
  | .serve env, w => env.Safe c w

/-- What is written in the next step fits. -/
def Roomy (c : Crypto) : Move → World N → Prop
  | .poll _, _ => True
  | .serve env, w => env.Roomy c w

private theorem World.Within.bounded (h : w.Within) : w.Bounded := fun s ↦ (h s).bounds

/-- A handler overruns an array exactly if its reply has no room. -/
theorem overruns_iff {cmd : Command} (h : w.Quiet) (hin : w.Within) :
    w.Overruns c q2 cmd ↔ ¬ w.HasRoom c q2 cmd := by
  constructor
  · rintro ⟨⟨w₁, hprep⟩, w', herror⟩ hroom
    obtain ⟨v, hrun, _⟩ := exec_returns h hin hroom hprep
    rw [herror] at hrun
    cases hrun
  · intro hno
    unfold World.HasRoom at hno
    push Not at hno
    obtain ⟨hc, w₁, hprep, hlong⟩ := hno
    exact ⟨⟨w₁, hprep⟩, exec_faults h hin hc hprep hlong⟩

private theorem comes_within {cmd : Command} {v : World N} (h : v.Quiet) (hin : v.Within)
    (hcomes : Comes c q2 cmd v w) : w.Quiet ∧ w.Within := by
  induction hcomes with
  | next _ _ => exact ⟨h, hin⟩
  | @later v v' _ _ hround _ ih =>
    obtain ⟨cmd, m, _, hexec⟩ := (parseNext_splits c q2 v () v').mp hround
    have hquiet : World.Quiet { v with msg := m } := h
    have hwithin : World.Within { v with msg := m } := hin
    exact ih (quiet_exec hquiet hexec) (within_exec hquiet hwithin hexec)

/-- The reply to a HELLO has been sent, with what was left in the buffer. -/
theorem within_registerHello {env : HelloEnv} {i : Nat} {h : Hello}
    {found : Option (Fin N)} (hin : w.Within) (hkey : w.serverOfKey h.key = some q2)
    (hrun : (registerHello c env i h).run w = .ok found w') : w'.Within := by
  obtain ⟨_, _, plain, rfl, _⟩ := registerHello_ok hkey hrun
  intro s
  by_cases hs : s = q2
  · rw [hs, World.posted_self]
    exact MsgBuffer.within_zero
  · rw [World.posted_of_ne _ _ _ hs, World.replying_of_ne _ _ _ _ hs]
    exact hin s

private theorem enters_within {env : Answer} {v : World N} (h : w.Quiet) (hin : w.Within)
    (henters : Enters c env w q2 v) : v.Quiet ∧ v.Within := by
  cases henters with
  | message _ _ _ decrypt =>
    obtain ⟨_, rfl⟩ := decryptMessage_ok decrypt
    exact ⟨h, hin⟩
  | hello hello m w₁ greeting register decrypt =>
    obtain ⟨_, rfl⟩ := decryptMessage_ok decrypt
    have hkey : World.serverOfKey { w.receiving env.recv w.scan with msg := m } hello.key =
        some q2 := (greeting_some greeting).2
    have hquiet : World.Quiet { w.receiving env.recv w.scan with msg := m } := h
    have hwithin : World.Within { w.receiving env.recv w.scan with msg := m } := hin
    have hquiet₁ : w₁.Quiet := quiet_registerHello hquiet register
    have hwithin₁ : w₁.Within := within_registerHello hwithin hkey register
    exact ⟨hquiet₁, hwithin₁⟩

/-- A turn leaves every buffer within its array. -/
theorem within_turn {env : Answer} {i : Nat} (h : w.Quiet) (hin : w.Within)
    (hturn : Turn c env i w w') : w'.Within := by
  have hindex (r : Q2Server) (i : Nat) : Q2Server.msg { r with index := i } = r.msg := rfl
  have hreceiving (m : MsgBuffer) : World.Within { w.receiving env.recv i with msg := m } := hin
  cases hturn with
  | idle same =>
    rw [same]
    exact hin
  | accept fd _ _ _ run =>
    cases run
    exact hin
  | hangUp q2 _ _ _ run =>
    exact World.Within.of_servers (w := w.receiving env.recv i) hin fun s ↦
      (keeps_server_hangUp hindex (fun _ ↦ rfl) s q2 i).ok run
  | message q2 cmds m _ _ _ run =>
    exact within_execAll (w := { w.receiving env.recv i with
      msg := m, trace := w.deciphering q2 ++ (w.receiving env.recv i).trace }) h hin run
  | peer request m _ _ _ run =>
    exact (hreceiving m).of_servers fun s ↦ (keeps_server_peer hindex c s i request).ok run
  | stranger m _ _ _ run =>
    exact (hreceiving m).of_servers fun s ↦ (keeps_server_turnAway hindex s i).ok run
  | refused q2 hello m w₁ _ _ greeting _ register run =>
    have hgreeted : w₁.Within := within_registerHello
      (w := { w.receiving env.recv i with msg := m }) hin (greeting_some greeting).2 register
    exact hgreeted.of_servers fun s ↦ (keeps_server_turnAway hindex s i).ok run
  | hello q2 hello m w₁ cmds m' _ _ greeting _ _ register run =>
    have hquiet : w₁.Quiet :=
      quiet_registerHello (w := { w.receiving env.recv i with msg := m }) h register
    have hgreeted : w₁.Within := within_registerHello
      (w := { w.receiving env.recv i with msg := m }) hin (greeting_some greeting).2 register
    exact within_execAll (w := { w₁ with
      msg := m', trace := w₁.deciphering q2 ++ w₁.trace }) hquiet hgreeted run

/-- In every state that the loop reaches the buffers are within their arrays: a step that does
not return reaches none. -/
theorem Run.within {G : Move → World N → Prop} {ms : List Move} {rows : Fin N → Row}
    {listener : Nat} {junk : Nat → PollFd}
    (hrun : Run (step c) G ms (initial rows listener junk) w) : w.Within := by
  have hboth : w.Quiet ∧ w.Within := by
    refine hrun.invariant (I := fun w ↦ w.Quiet ∧ w.Within) (fun m w w' _ hs h ↦ ?_) ?_
    · cases m with
      | poll ready =>
        rw [step_poll hs]
        exact h
      | serve env =>
        obtain ⟨w₁, hturn, rfl⟩ := step_turn hs
        have hquiet : w₁.Quiet := quiet_turn h.1 hturn
        have hin : w₁.Within := within_turn h.1 h.2 hturn
        exact ⟨hquiet, hin⟩
    · exact ⟨fun s ↦ ⟨fun _ ↦ rfl, Bool.noConfusion⟩, fun s ↦ MsgBuffer.within_zero⟩
  exact hboth.2

/-- Nothing is written while no client is served. -/
theorem roomy_of_not_client {env : Answer} (slot : ¬ w.Client w.scan) : env.Roomy c w := by
  have hgreeting := (silent_of_not_client c env slot).1
  refine ⟨fun m asked ↦ absurd asked.1 slot, fun q2 h m greeting ↦ ?_, fun q2 v cmd w' henters ↦ ?_⟩
  · rw [hgreeting] at greeting
    cases greeting
  · cases henters with
    | message client => exact absurd client slot
    | hello h m w₁ greeting =>
      rw [hgreeting] at greeting
      cases greeting

/-- A plain HELLO with nothing behind it writes its reply only. -/
theorem roomy_of_hello {env : Answer} {hello : Hello} {m : MsgBuffer}
    (greeting : w.greeting env w.scan = some (q2, hello, m)) (hplain : hello.encrypted = 0)
    (hread : m.unread = false) (hroom : (w.servers q2).RoomFor env.hello hello) :
    env.Roomy c w := by
  refine ⟨fun m' asked ↦ ?_, fun q h m' greeting' _ ↦ ?_, fun q v cmd w' henters hcomes ↦ ?_⟩
  · have hread := (greeting_some greeting).1
    rw [asked.2.2] at hread
    cases hread
  · rw [greeting] at greeting'
    cases greeting'
    exact hroom
  · exfalso
    cases henters with
    | message _ owner =>
      rw [(client_of_greeting greeting).2] at owner
      cases owner
    | hello h m' w₁ greeting' register decrypt =>
      rw [greeting] at greeting'
      cases greeting'
      have hmsg : w₁.msg = m := (seen_registerHello register).1
      have hkey : World.serverOfKey { w.receiving env.recv w.scan with msg := m } hello.key =
          some q2 := (greeting_some greeting).2
      obtain ⟨_, _, plain, hw₁, _⟩ := registerHello_ok hkey register
      have hsecure : (w₁.servers q2).secure = false := by
        rw [hw₁, World.posted_self, World.replying_self]
        dsimp only
        split <;> simp [Q2Server.secure, Q2Server.hold, Q2Server.share, Q2Server.challenge,
          Q2Server.welcome, Q2Server.keyed, Q2Server.claim, hplain]
      rw [decryptMessage_of_plain hsecure] at decrypt
      cases decrypt
      rw [← hmsg] at hread
      cases hcomes with
      | next unread =>
        rw [hread] at unread
        cases unread
      | later unread =>
        rw [hread] at unread
        cases unread

-- The server is not connected, and no server has the name `location`.
private structure Astray (q2 : Fin N) (location : List UInt8) (v : World N) : Prop where
  quiet : v.Quiet
  inside : v.Within
  gone : (v.servers q2).connected = false
  nowhere : v.located location = none

private theorem located_exec {cmd : Command} {location : List UInt8} (hwrites : cmd.writes = false)
    (hrun : (exec c q2 cmd).run w = .ok () w') : w'.located location = w.located location := by
  have hname (s : Fin N) : (w'.servers s).nameStr = (w.servers s).nameStr :=
    (keeps_exec (fun _ ↦ rfl) c q2 s hwrites).ok hrun
  unfold World.located
  simp only [hname]

section Round

variable {v v' : World N} {f : Frame} {rest : List UInt8}

private theorem frame_round (hfits : f.Fits) (hstands : Stands v.msg (f.wire ++ rest))
    (hrun : (exec c q2 f.command').run { v with msg := v.msg.advance f.wire.length } = .ok () v') :
    (parseNext c q2).run v = .ok () v' ∧ v'.msg = v.msg.advance f.wire.length ∧
      Stands v'.msg rest := by
  obtain ⟨hframe, hrest⟩ := stands_append.mp hstands
  have hround := (parseNext_splits c q2 v () v').mpr ⟨_, _, reads_frame hfits v.msg hframe, hrun⟩
  have hmsg : v'.msg = v.msg.advance f.wire.length :=
    (detached_exec c q2 f.command').blind.keeps.ok hrun
  rw [hmsg]
  exact ⟨hround, rfl, hrest⟩

private theorem unread_of_frame (hend : v.msg.index + (f.wire ++ rest).length ≤ v.msg.length)
    (hlength : v.msg.length ≤ msgSize) : v.msg.unread = true := by
  have hpos := f.wire_length_pos
  rw [List.length_append] at hend
  unfold MsgBuffer.unread
  rw [Bool.and_eq_true, decide_eq_true_eq, decide_eq_true_eq]
  omega

end Round

-- What answers a TELEPORT to a location that no server has.
private def refusal (clientId : UInt8) (location : List UInt8) : List UInt8 :=
  sayClientBytes clientId printHigh (vaText (unlocatedFormat location))

section Pile

variable {v : World N} {clientId : UInt8} {location : List UInt8}

/-- A TELEPORT to a location prepares nothing. -/
theorem prepare_teleport (hlocation : location ≠ []) :
    ((Command.teleport clientId location).prepare c q2).run v = .ok () v := by
  unfold Command.prepare
  dsimp only
  rw [if_neg hlocation]
  rfl

private theorem Astray.reply (h : Astray q2 location v) (hlocation : location ≠ []) :
    (Command.teleport clientId location).reply c v q2 = refusal clientId location := by
  unfold Command.reply
  dsimp only
  rw [if_neg hlocation, h.nowhere]
  rfl

private theorem Astray.refused (h : Astray q2 location v) (hlocation : location ≠ [])
    (hroom : (v.servers q2).msg.length + (refusal clientId location).length ≤ msgSize) :
    ∃ w, (exec c q2 (.teleport clientId location)).run v = .ok () w ∧ Astray q2 location w ∧
      (w.servers q2).msg.length =
        (v.servers q2).msg.length + (refusal clientId location).length := by
  have hreply : (Command.teleport clientId location).reply c v q2 = refusal clientId location :=
    h.reply hlocation
  have hroomy : v.HasRoom c q2 (.teleport clientId location) := fun _ _ _ ↦ by
    rw [hreply]
    exact hroom
  obtain ⟨w, hrun, hin, hconnected, hwaits⟩ :=
    teleport_run h.quiet h.inside hroomy (prepare_teleport hlocation)
  have hexec : (exec c q2 (.teleport clientId location)).run v = .ok () w := hrun
  have hastray : Astray q2 location w :=
    ⟨quiet_exec h.quiet hexec, hin, hconnected.trans h.gone,
      (located_exec rfl hexec).trans h.nowhere⟩
  refine ⟨w, hexec, hastray, ?_⟩
  rw [hwaits, Q2Server.waiting, h.gone, hreply]
  rfl

end Pile

section Teleports

variable {v : World N} {clientId : UInt8} {location : Text} {k : Nat}

-- The refusal of the first one of the TELEPORTs that are left in a message.
private theorem teleport_round (hfits : (Frame.teleport clientId location).Fits)
    (hlocation : location.value ≠ []) (h : Astray q2 location.value v)
    (hstands : Stands v.msg (framesWire (.replicate (k + 1) (.teleport clientId location))))
    (hroom : (v.servers q2).msg.length + (refusal clientId location.value).length ≤ msgSize) :
    ∃ v', (parseNext c q2).run v = .ok () v' ∧ Astray q2 location.value v' ∧
      v'.msg = v.msg.advance (Frame.teleport clientId location).wire.length ∧
      Stands v'.msg (framesWire (.replicate k (.teleport clientId location))) ∧
      (v'.servers q2).msg.length =
        (v.servers q2).msg.length + (refusal clientId location.value).length := by
  rw [List.replicate_succ, framesWire_cons] at hstands
  have hread : Astray q2 location.value
      { v with msg := v.msg.advance (Frame.teleport clientId location).wire.length } :=
    ⟨h.quiet, h.inside, h.gone, h.nowhere⟩
  obtain ⟨v', hrun, hastray, hwaits⟩ := hread.refused (c := c) hlocation hroom
  obtain ⟨hround, hmsg, hrest⟩ := frame_round hfits hstands hrun
  exact ⟨v', hround, hastray, hmsg, hrest, hwaits⟩

-- The refusals pile up in the buffer of a server that is not connected.
private theorem comes_teleport (hfits : (Frame.teleport clientId location).Fits)
    (hlocation : location.value ≠ []) (h : Astray q2 location.value v)
    (hstands : Stands v.msg (framesWire (.replicate (k + 1) (.teleport clientId location))))
    (hend : v.msg.index +
      (framesWire (.replicate (k + 1) (.teleport clientId location))).length ≤ v.msg.length)
    (hlength : v.msg.length ≤ msgSize)
    (hroom : (v.servers q2).msg.length + k * (refusal clientId location.value).length ≤ msgSize) :
    ∃ w, Comes c q2 (.teleport clientId location.value) v w ∧ Astray q2 location.value w ∧
      (w.servers q2).msg.length =
        (v.servers q2).msg.length + k * (refusal clientId location.value).length := by
  induction k generalizing v with
  | zero =>
    rw [Nat.zero_add, List.replicate_one, framesWire_cons] at hstands hend
    have hread := reads_frame hfits v.msg (stands_append.mp hstands).1
    refine ⟨_, .next (unread_of_frame hend hlength) hread,
      ⟨h.quiet, h.inside, h.gone, h.nowhere⟩, ?_⟩
    rw [Nat.zero_mul, Nat.add_zero]
  | succ k ih =>
    rw [Nat.succ_mul] at hroom
    obtain ⟨v', hround, hastray, hmsg, hrest, hpiled⟩ :=
      teleport_round (c := c) hfits hlocation h hstands (by omega)
    rw [List.replicate_succ, framesWire_cons] at hend
    have hunread := unread_of_frame hend hlength
    rw [List.length_append] at hend
    obtain ⟨w, hcomes, hastray', hlen⟩ := ih hastray hrest
      (by rw [hmsg, MsgBuffer.advance_index, MsgBuffer.advance_length]; omega)
      (by rw [hmsg, MsgBuffer.advance_length]; exact hlength) (by omega)
    refine ⟨w, .later hunread hround hcomes, hastray', ?_⟩
    rw [hlen, hpiled, Nat.succ_mul]
    omega

-- As long as all of them fit, there is room for each one.
private theorem room_of_teleports {cmd : Command}
    (hfits : (Frame.teleport clientId location).Fits) (hlocation : location.value ≠ [])
    (h : Astray q2 location.value v)
    (hstands : Stands v.msg (framesWire (.replicate k (.teleport clientId location))))
    (hend : v.msg.length =
      v.msg.index + (framesWire (.replicate k (.teleport clientId location))).length)
    (hroom : (v.servers q2).msg.length + k * (refusal clientId location.value).length ≤ msgSize)
    (hcomes : Comes c q2 cmd v w) : w.HasRoom c q2 cmd := by
  induction k generalizing v with
  | zero =>
    have hread : v.msg.unread = false := by
      unfold MsgBuffer.unread
      rw [Bool.and_eq_false_iff, decide_eq_false_iff_not]
      left
      rw [hend]
      exact Nat.lt_irrefl _
    cases hcomes with
    | next unread =>
      rw [hread] at unread
      cases unread
    | later unread =>
      rw [hread] at unread
      cases unread
  | succ k ih =>
    rw [Nat.succ_mul] at hroom
    obtain ⟨v', hround, hastray, hmsg, hrest, hpiled⟩ :=
      teleport_round (c := c) hfits hlocation h hstands (by omega)
    rw [List.replicate_succ, framesWire_cons] at hstands hend
    cases hcomes with
    | next _ read =>
      rw [reads_frame hfits v.msg (stands_append.mp hstands).1] at read
      cases read
      intro _ _ _
      have hastray' : Astray q2 location.value
          { v with msg := v.msg.advance (Frame.teleport clientId location).wire.length } :=
        ⟨h.quiet, h.inside, h.gone, h.nowhere⟩
      rw [show (Frame.teleport clientId location).command' = .teleport clientId location.value
        from rfl, hastray'.reply hlocation]
      change (v.servers q2).msg.length + _ ≤ msgSize
      omega
    | later _ round rest =>
      rw [hround] at round
      cases round
      rw [List.length_append] at hend
      refine ih hastray hrest ?_ (by omega) rest
      rw [hmsg, MsgBuffer.advance_index, MsgBuffer.advance_length]
      omega

end Teleports

-- A QUIT, and behind it TELEPORTs to a location that no server has.
private def leaving (clientId : UInt8) (location : Text) (k : Nat) : List Frame :=
  .quit :: .replicate k (.teleport clientId location)

private theorem leaving_length (clientId : UInt8) (location : Text) (k : Nat) :
    (framesWire (leaving clientId location k)).length = 1 + k * (location.rest.length + 5) := by
  unfold leaving
  rw [framesWire_cons, List.length_append]
  refine congrArg (1 + ·) ?_
  induction k with
  | zero =>
    rw [Nat.zero_mul]
    rfl
  | succ k ih =>
    have hone : (Frame.teleport clientId location).wire.length = location.rest.length + 5 := by
      simp [Frame.wire, Frame.fields, Text.wire_length]
    rw [List.replicate_succ, framesWire_cons, List.length_append, ih, hone, Nat.succ_mul,
      Nat.add_comm]

section Leaving

variable {v : World N} {clientId : UInt8} {location : Text} {k : Nat}

-- Behind the QUIT the server is not connected.
private theorem quit_round (h : v.Quiet) (hin : v.Within)
    (hnowhere : v.located location.value = none)
    (hmsg : v.msg = .received (framesWire (leaving clientId location k)))
    (hlength : v.msg.length ≤ msgSize) :
    ∃ v', v.msg.unread = true ∧ (parseNext c q2).run v = .ok () v' ∧ Astray q2 location.value v' ∧
      v'.msg.length = v.msg.length ∧
      v'.msg.length =
        v'.msg.index + (framesWire (.replicate k (.teleport clientId location))).length ∧
      Stands v'.msg (framesWire (.replicate k (.teleport clientId location))) ∧
      (v'.servers q2).msg.length = (v.servers q2).msg.length := by
  have hdata : v.msg.data.length ≤ msgSpace := by
    rw [hmsg] at hlength ⊢
    exact hlength.trans (Nat.le_add_right _ _)
  have hstands : Stands v.msg (framesWire (leaving clientId location k)) :=
    stands_of_drop hdata (by rw [hmsg, List.append_nil]; rfl)
  have hend : v.msg.index + (framesWire (leaving clientId location k)).length ≤
      v.msg.length := by
    rw [hmsg]
    exact Nat.le_of_eq (Nat.zero_add _)
  unfold leaving at hstands hend
  rw [framesWire_cons] at hstands hend
  obtain ⟨v', hrun, hgone, hbuffers⟩ :=
    close_run q2 { v with msg := v.msg.advance Frame.quit.wire.length }
  have hquit : (exec c q2 .quit).run { v with msg := v.msg.advance Frame.quit.wire.length } =
      .ok () v' := hrun
  obtain ⟨hround, hmsg', hrest⟩ := frame_round (f := .quit) nofun hstands hquit
  have hquiet : World.Quiet { v with msg := v.msg.advance Frame.quit.wire.length } := h
  have hwithin : World.Within { v with msg := v.msg.advance Frame.quit.wire.length } := hin
  have hastray : Astray q2 location.value v' :=
    ⟨hquiet.close hrun, hwithin.of_servers hbuffers, hgone,
      (located_exec rfl hquit).trans hnowhere⟩
  have hsame : v'.msg.length = v.msg.length := by
    rw [hmsg', MsgBuffer.advance_length]
  have hleft : v'.msg.length =
      v'.msg.index + (framesWire (.replicate k (.teleport clientId location))).length := by
    rw [hmsg', hmsg]
    exact Nat.add_comm _ 1
  exact ⟨v', unread_of_frame hend hlength, hround, hastray, hsame, hleft, hrest,
    congrArg MsgBuffer.length (hbuffers q2)⟩

private theorem comes_leaving (hfits : (Frame.teleport clientId location).Fits)
    (hlocation : location.value ≠ []) (h : v.Quiet) (hin : v.Within)
    (hnowhere : v.located location.value = none)
    (hmsg : v.msg = .received (framesWire (leaving clientId location (k + 1))))
    (hlength : v.msg.length ≤ msgSize)
    (hroom : (v.servers q2).msg.length + k * (refusal clientId location.value).length ≤ msgSize) :
    ∃ w, Comes c q2 (.teleport clientId location.value) v w ∧ Astray q2 location.value w ∧
      (w.servers q2).msg.length =
        (v.servers q2).msg.length + k * (refusal clientId location.value).length := by
  obtain ⟨v', hunread, hround, hastray, hsame, hleft, hrest, hkept⟩ :=
    quit_round (c := c) h hin hnowhere hmsg hlength
  obtain ⟨w, hcomes, hastray', hlen⟩ := comes_teleport (k := k) hfits hlocation hastray hrest
    (Nat.le_of_eq hleft.symm) (by rw [hsame]; exact hlength) (by rw [hkept]; exact hroom)
  exact ⟨w, .later hunread hround hcomes, hastray', hlen.trans (by rw [hkept])⟩

private theorem room_of_leaving {cmd : Command} (hfits : (Frame.teleport clientId location).Fits)
    (hlocation : location.value ≠ []) (h : v.Quiet) (hin : v.Within)
    (hconnected : (v.servers q2).connected = true) (hnowhere : v.located location.value = none)
    (hmsg : v.msg = .received (framesWire (leaving clientId location k)))
    (hlength : v.msg.length ≤ msgSize)
    (hroom : (v.servers q2).msg.length + k * (refusal clientId location.value).length ≤ msgSize)
    (hcomes : Comes c q2 cmd v w) : w.HasRoom c q2 cmd := by
  cases hcomes with
  | next =>
    intro hgone
    have hgone' : (v.servers q2).connected = false := hgone
    rw [hconnected] at hgone'
    cases hgone'
  | later _ round rest =>
    obtain ⟨v', _, hround, hastray, _, hleft, hrest, hkept⟩ :=
      quit_round (c := c) h hin hnowhere hmsg hlength
    rw [hround] at round
    cases round
    exact room_of_teleports hfits hlocation hastray hrest hleft (by rw [hkept]; exact hroom) rest

-- Such a message can be served while its refusals fit.
private theorem roomy_of_leaving {env : Answer} (owner : w.getServer w.scan = some q2)
    (hsecure : (w.servers q2).secure = false)
    (hconnected : (w.servers q2).connected = true) (h : w.Quiet) (hin : w.Within)
    (hfits : (Frame.teleport clientId location).Fits) (hlocation : location.value ≠ [])
    (hnowhere : w.located location.value = none)
    (hbuffer : env.recv.buffer = .received (framesWire (leaving clientId location k)))
    (hlength : (framesWire (leaving clientId location k)).length ≤ msgSize)
    (hroom : (w.servers q2).msg.length + k * (refusal clientId location.value).length ≤ msgSize) :
    env.Roomy c w := by
  refine ⟨fun m asked ↦ ?_, fun s hello m greeting ↦ ?_, fun s v cmd w' henters hcomes ↦ ?_⟩
  · have hnone := asked.2.1
    rw [owner] at hnone
    cases hnone
  · have hnone := (client_of_greeting greeting).2
    rw [owner] at hnone
    cases hnone
  · cases henters with
    | message _ owner' _ decrypt =>
      rw [owner] at owner'
      cases owner'
      have hplain : (w.receiving env.recv w.scan).servers q2 = w.servers q2 := rfl
      rw [decryptMessage_of_plain (hplain ▸ hsecure)] at decrypt
      cases decrypt
      have hmsg : (w.receiving env.recv w.scan).msg =
          .received (framesWire (leaving clientId location k)) := hbuffer
      refine room_of_leaving (v := w.receiving env.recv w.scan) hfits hlocation h hin hconnected
        hnowhere hmsg ?_ hroom hcomes
      rw [hmsg]
      exact hlength
    | hello hello m w₁ greeting =>
      have hnone := (client_of_greeting greeting).2
      rw [owner] at hnone
      cases hnone

end Leaving

private theorem safe_of_roomy {env : Answer} (h : w.Quiet) (hin : w.Within)
    (hroomy : env.Roomy c w) : env.Safe c w where
  peer m asked w' hrun := by
    have hfits : World.announcedSize { w.receiving env.recv w.scan with msg := m } ≤ msgSize :=
      hroomy.peer m asked
    rw [pGetServerList_run c w.scan hfits] at hrun
    cases hrun
  hello q2 hello m greeting hsign w' hrun := by
    have hquiet : World.Quiet { w.receiving env.recv w.scan with msg := m } := h
    have hwithin : World.Within { w.receiving env.recv w.scan with msg := m } := hin
    have hkey : World.serverOfKey { w.receiving env.recv w.scan with msg := m } hello.key =
        some q2 := (greeting_some greeting).2
    cases registerHello_error hquiet hwithin hkey hsign
      (hroomy.hello q2 hello m greeting hsign) hrun
  command q2 v cmd w' henters hcomes := by
    obtain ⟨hquiet, hwithin⟩ := enters_within h hin henters
    obtain ⟨hquiet', hwithin'⟩ := comes_within hquiet hwithin hcomes
    refine ⟨hwithin'.bounded, fun hover ↦ ?_⟩
    exact (overruns_iff hquiet' hwithin').mp hover (hroomy.command q2 v cmd w' henters hcomes)

/-- In a run whose steps write no more than fits, the output buffers are bounded in every state
that is reached, and a further step that writes no more than fits overruns none. -/
theorem buffers_bounded (c : Crypto) (rows : Fin N → Row) (listener : Nat) (junk : Nat → PollFd)
    (ms : List Move) (w : World N)
    (hrun : Run (step c) (Roomy c) ms (initial rows listener junk) w) :
    w.Bounded ∧ ∀ m, Roomy c m w → Safe c m w := by
  refine ⟨hrun.within.bounded, fun m hroomy ↦ ?_⟩
  cases m with
  | poll ready => trivial
  | serve env => exact safe_of_roomy hrun.quiet hrun.within hroomy

-- No client is served, or a plain HELLO whose reply fits.
private def Plain : Move → World 1 → Prop
  | .poll _, _ => True
  | .serve env, w => ¬ w.Client w.scan ∨ ((w.greeting env w.scan).any fun g ↦
      g.2.1.encrypted == 0 && !g.2.2.unread &&
        decide ((w.servers g.1).RoomFor env.hello g.2.1)) = true

private instance : ∀ (m : Move) (w : World 1), Decidable (Plain m w)
  | .poll _, _ => .isTrue trivial
  | .serve _, _ => inferInstanceAs (Decidable (_ ∨ _))

private theorem roomy_of_plain {m : Move} {w : World 1} (h : Plain m w) : Roomy c m w := by
  cases m with
  | poll ready => trivial
  | serve env =>
    rcases h with hidle | hgreeting
    · exact roomy_of_not_client hidle
    · obtain ⟨⟨q2, hello, m⟩, greeting, hfits⟩ := (Option.any_eq_true _ _).mp hgreeting
      simp only [Bool.and_eq_true, beq_iff_eq, Bool.not_eq_true', decide_eq_true_eq] at hfits
      obtain ⟨⟨hplain, hread⟩, hroom⟩ := hfits
      exact roomy_of_hello greeting hplain hread hroom

private def sampleNowhere : Text := ⟨110, [111], by decide⟩

private theorem sample_bound : ∃ w : World 1,
    Run (step Crypto.clear) (Roomy Crypto.clear) sampleBound sampleStart w ∧
      w.Client w.scan ∧ w.getServer w.scan = some 0 ∧ (w.servers 0).secure = false ∧
      (w.servers 0).connected = true ∧ w.located sampleNowhere.value = none := by
  have h : (follow (step Crypto.clear) Plain sampleBound sampleStart).any (fun w ↦
      decide (w.Client w.scan) && (decide (w.getServer w.scan = some 0) &&
        (!(w.servers 0).secure && ((w.servers 0).connected &&
          decide (w.located sampleNowhere.value = none))))) = true := by decide +kernel
  obtain ⟨w, hrun, hw⟩ := Run.exists_of_follow h
  simp only [Bool.and_eq_true, Bool.not_eq_true', decide_eq_true_eq] at hw
  exact ⟨w, hrun.mono fun _ _ hplain ↦ roomy_of_plain hplain, hw⟩

private theorem sampleLeaves_length_le {k : Nat} (h : k ≤ 10000) :
    (framesWire (leaving 0 sampleNowhere k)).length ≤ msgSize := by
  rw [leaving_length]
  change 1 + k * 6 ≤ 65535
  omega

private theorem sampleRefusal_length : (refusal 0 sampleNowhere.value).length = 30 := by decide

-- A QUIT with that many TELEPORTs behind it.
private def sampleLeaves (k : Nat) (h : k ≤ 10000) : Answer :=
  .sample none (.packet ⟨framesWire (leaving 0 sampleNowhere k), sampleLeaves_length_le h⟩)

/-- The refusals of 2184 TELEPORTs behind a QUIT fit. -/
theorem buffers_bounded_sample : ∃ (w v w' : World 1), w.Bounded ∧
    (sampleLeaves 2184 (by decide)).Safe Crypto.clear w ∧
    Enters Crypto.clear (sampleLeaves 2184 (by decide)) w 0 v ∧
    Comes Crypto.clear 0 (.teleport 0 sampleNowhere.value) v w' ∧
    (w'.servers 0).connected = false := by
  obtain ⟨w, hrun, slot, owner, hsecure, hconnected, hnowhere⟩ := sample_bound
  have hempty : (w.servers 0).msg.length = 0 :=
    congrArg MsgBuffer.length ((hrun.quiet 0).empty hconnected)
  have henters : Enters Crypto.clear (sampleLeaves 2184 (by decide)) w 0
      (w.receiving (sampleLeaves 2184 (by decide)).recv w.scan) := by
    refine .message slot owner ?_ (decryptMessage_of_plain hsecure)
    change (framesWire (leaving 0 sampleNowhere 2184)).length ≠ 0
    rw [leaving_length]
    decide
  obtain ⟨hbounded, hsafe⟩ := buffers_bounded Crypto.clear _ _ _ _ w hrun
  have hroom : (w.servers 0).msg.length + 2183 * (refusal 0 sampleNowhere.value).length ≤
      msgSize := by
    rw [hempty, sampleRefusal_length]
    decide
  obtain ⟨w', hcomes, hastray, _⟩ := comes_leaving (c := Crypto.clear)
    (v := w.receiving (sampleLeaves 2184 (by decide)).recv w.scan) (by decide) (by decide)
    hrun.quiet hrun.within hnowhere rfl (sampleLeaves_length_le (by decide)) hroom
  refine ⟨w, _, w', hbounded, ?_, henters, hcomes, hastray.gone⟩
  refine hsafe (.serve (sampleLeaves 2184 (by decide))) (roomy_of_leaving owner hsecure
    hconnected hrun.quiet hrun.within (by decide) (by decide) hnowhere rfl
    (sampleLeaves_length_le (by decide)) ?_)
  rw [sampleRefusal_length, hempty]
  decide

/-- The refusals of 2185 TELEPORTs behind a QUIT do not fit. -/
theorem teleports_overflow : ¬ ∀ (ms : List Move) (w : World 1),
    Run (step Crypto.clear) Unguarded ms sampleStart w →
      w.Bounded ∧ ∀ m, Safe Crypto.clear m w := by
  intro hclaim
  obtain ⟨w, hrun, slot, owner, hsecure, hconnected, hnowhere⟩ := sample_bound
  have hempty : (w.servers 0).msg.length = 0 :=
    congrArg MsgBuffer.length ((hrun.quiet 0).empty hconnected)
  have hroom : (w.servers 0).msg.length + 2184 * (refusal 0 sampleNowhere.value).length ≤
      msgSize := by
    rw [hempty, sampleRefusal_length]
    decide
  obtain ⟨v, hcomes, hastray, hpiled⟩ := comes_leaving (c := Crypto.clear)
    (v := w.receiving (sampleLeaves 2185 (by decide)).recv w.scan) (by decide) (by decide)
    hrun.quiet hrun.within hnowhere rfl (sampleLeaves_length_le (by decide)) hroom
  have hpiled' : (v.servers 0).msg.length = 65520 := by
    rw [hpiled, sampleRefusal_length]
    change (w.servers 0).msg.length + 2184 * 30 = 65520
    rw [hempty]
  have hfull : ¬ v.HasRoom Crypto.clear 0 (.teleport 0 sampleNowhere.value) := by
    intro hroom
    have hle := hroom hastray.gone v (prepare_teleport (by decide))
    rw [hastray.reply (by decide), hpiled', sampleRefusal_length] at hle
    exact absurd hle (by decide)
  have hsafe : Answer.Safe Crypto.clear _ w :=
    (hclaim _ w (hrun.mono fun _ _ _ ↦ trivial)).2 (.serve (sampleLeaves 2185 (by decide)))
  refine (hsafe.command 0 _ _ v (.message slot owner ?_ ?_) hcomes).2
    ((overruns_iff hastray.quiet hastray.inside).mpr hfull)
  · change (framesWire (leaving 0 sampleNowhere 2185)).length ≠ 0
    rw [leaving_length]
    decide
  · exact decryptMessage_of_plain hsecure

end Q2Admin
