import Q2Admin.Session.Refinement

/-!
# Turns of the scan

Library `Q2Admin.Session`. What serving one slot of the poll table comes to, in terms of the
handlers that have run. `World.heard` says before a step which server is heard in it and with
which commands, so that conditions on a run can speak of the commands that are about to come.
-/

namespace Q2Admin

open Exec

variable {N : Nat}

/-- A slot that is ready and not the listener's. -/
def World.Client (w : World N) (i : Nat) : Prop :=
  (w.sockets i).revents = true ∧ (w.sockets i).fd ≠ w.listener

instance (w : World N) (i : Nat) : Decidable (w.Client i) :=
  inferInstanceAs (Decidable (_ ∧ _))

/-- The HELLO that comes as first message on a slot without owner, the server it is for, and the
rest of the message. -/
def World.greeting (w : World N) (env : Answer) (i : Nat) : Option (Fin N × Hello × MsgBuffer) :=
  if w.Client i ∧ w.getServer i = none then
    match readFirst.run env.recv.buffer with
    | .ok (.hello h) m => (w.serverOfKey h.key).map fun q2 ↦ (q2, h, m)
    | _ => none
  else none

/-- The server that is heard when a slot is served, and its commands: those of a message from
the owner of the slot, or those behind a HELLO that is answered. -/
def World.heard (c : Crypto) (w : World N) (env : Answer) (i : Nat) :
    Option (Fin N × List Command) :=
  match w.getServer i with
  | some q2 =>
    if w.Client i ∧ env.recv.buffer.length ≠ 0 then
      ((w.servers q2).commands c env.recv.buffer).map fun cmds ↦ (q2, cmds)
    else none
  | none =>
    match w.greeting env i with
    | some (q2, h, m) =>
      if env.hello.answers h.challenge then
        (((w.servers q2).greeted env.hello h).commands c m).map fun cmds ↦ (q2, cmds)
      else none
    | none => none

/-- The record by which the commands that are heard when a slot is served are judged. -/
def World.judge (w : World N) (env : Answer) (i : Nat) (q2 : Fin N) : Q2Server :=
  match w.greeting env i with
  | some (_, h, _) => (w.servers q2).greeted env.hello h
  | none => w.servers q2

/-- Nothing that comes from the owner of a slot is a first message. -/
theorem greeting_of_owner {w : World N} {env : Answer} {i : Nat} {q2 : Fin N}
    (owner : w.getServer i = some q2) : w.greeting env i = none := by
  unfold World.greeting
  rw [if_neg (by simp [owner])]

/-- What comes from the owner of a slot is judged by its record. -/
theorem judge_of_owner {w : World N} {env : Answer} {i : Nat} {q2 : Fin N}
    (owner : w.getServer i = some q2) : w.judge env i q2 = w.servers q2 := by
  unfold World.judge
  rw [greeting_of_owner owner]

/-- What comes behind a HELLO is judged by the record that the HELLO has left. -/
theorem judge_of_greeting {w : World N} {env : Answer} {i : Nat} {q2 : Fin N} {h : Hello}
    {m : MsgBuffer} (greeting : w.greeting env i = some (q2, h, m)) :
    w.judge env i q2 = (w.servers q2).greeted env.hello h := by
  unfold World.judge
  rw [greeting]

section Unheard

variable {c : Crypto} {w : World N} {env : Answer} {i : Nat} {q2 : Fin N}

/-- From a stranger no command is heard. -/
theorem heard_of_stranger (owner : w.getServer i = none) (greeting : w.greeting env i = none) :
    w.heard c env i = none := by
  unfold World.heard
  rw [owner]
  dsimp only
  rw [greeting]

/-- Nothing comes on a slot that is not served as a client's. -/
theorem silent_of_not_client (c : Crypto) (env : Answer) (slot : ¬ w.Client i) :
    w.greeting env i = none ∧ w.heard c env i = none := by
  have hgreeting : w.greeting env i = none := if_neg fun h ↦ slot h.1
  refine ⟨hgreeting, ?_⟩
  cases owner : w.getServer i with
  | none => exact heard_of_stranger owner hgreeting
  | some q2 =>
    unfold World.heard
    rw [owner]
    exact if_neg fun h ↦ slot h.1

/-- Nothing is heard from a server whose connection has ended. -/
theorem heard_of_ended (owner : w.getServer i = some q2) (ended : env.recv.buffer.length = 0) :
    w.heard c env i = none := by
  unfold World.heard
  rw [owner]
  exact if_neg fun hs ↦ hs.2 ended

/-- A peer's request greets no server. -/
theorem greeting_of_peer {request : UInt8} {m : MsgBuffer} (slot : w.Client i)
    (owner : w.getServer i = none) (read : readFirst.run env.recv.buffer = .ok (.peer request) m) :
    w.greeting env i = none := by
  unfold World.greeting
  rw [if_pos ⟨slot, owner⟩, read]

/-- Nothing is heard behind a HELLO that is not answered. -/
theorem heard_of_silent {h : Hello} {m : MsgBuffer} (owner : w.getServer i = none)
    (greeting : w.greeting env i = some (q2, h, m))
    (silent : env.hello.answers h.challenge = false) : w.heard c env i = none := by
  unfold World.heard
  rw [owner]
  dsimp only
  rw [greeting]
  exact if_neg (by simp [silent])

end Unheard

/-- What serving a slot has come to. -/
inductive Turn (c : Crypto) (env : Answer) (i : Nat) (w w' : World N) : Prop
  /-- The slot is not ready, or `accept` has failed. -/
  | idle (same : w' = w) (slot : ¬ w.Client i)
  | accept (fd : Nat) (ready : (w.sockets i).revents = true)
      (slot : (w.sockets i).fd = w.listener) (accepted : env.accept = some fd)
      (run : (acceptClient (some fd)).run w = .ok () w')
  /-- The connection of a server has ended. -/
  | hangUp (q2 : Fin N) (slot : w.Client i) (owner : w.getServer i = some q2)
      (ended : env.recv.buffer.length = 0)
      (run : (Q2Admin.hangUp (some q2) i).run (w.receiving env.recv i) = .ok () w')
  /-- A message from the owner of the slot. -/
  | message (q2 : Fin N) (cmds : List Command) (m : MsgBuffer) (slot : w.Client i)
      (owner : w.getServer i = some q2) (heard : w.heard c env i = some (q2, cmds))
      (run : (forM cmds (exec c q2)).run
        { w.receiving env.recv i with
          msg := m
          trace := w.deciphering q2 ++ (w.receiving env.recv i).trace } = .ok () w')
  | peer (request : UInt8) (m : MsgBuffer) (slot : w.Client i) (owner : w.getServer i = none)
      (read : readFirst.run env.recv.buffer = .ok (.peer request) m)
      (run : (do answerPeer c i request; removeServerSocket).run
        { w.receiving env.recv i with msg := m } = .ok () w')
  /-- Neither a peer nor a registered server. -/
  | stranger (m : MsgBuffer) (slot : w.Client i) (owner : w.getServer i = none)
      (unknown : w.greeting env i = none)
      (run : (turnAway i).run { w.receiving env.recv i with msg := m } = .ok () w')
  /-- A HELLO that is not answered. -/
  | refused (q2 : Fin N) (h : Hello) (m : MsgBuffer) (w₁ : World N) (slot : w.Client i)
      (owner : w.getServer i = none) (greeting : w.greeting env i = some (q2, h, m))
      (silent : env.hello.answers h.challenge = false)
      (register : (registerHello c env.hello i h).run { w.receiving env.recv i with msg := m } =
        .ok none w₁)
      (run : (turnAway i).run w₁ = .ok () w')
  /-- A HELLO that is answered, with the commands behind it. -/
  | hello (q2 : Fin N) (h : Hello) (m : MsgBuffer) (w₁ : World N) (cmds : List Command)
      (m' : MsgBuffer) (slot : w.Client i) (owner : w.getServer i = none)
      (greeting : w.greeting env i = some (q2, h, m))
      (answers : env.hello.answers h.challenge = true)
      (heard : w.heard c env i = some (q2, cmds))
      (register : (registerHello c env.hello i h).run { w.receiving env.recv i with msg := m } =
        .ok (some q2) w₁)
      (run : (forM cmds (exec c q2)).run
        { w₁ with msg := m', trace := w₁.deciphering q2 ++ w₁.trace } = .ok () w')

private theorem commands_congr (c : Crypto) {s s' : Q2Server} (h : s.reception = s'.reception)
    (m : MsgBuffer) : s.commands c m = s'.commands c m := by
  unfold Q2Server.commands
  rw [plainMessage_congr c h]

private theorem turn_of_hello {c : Crypto} {env : Answer} {i : Nat} {h : Hello} {m : MsgBuffer}
    {w w' : World N} (slot : w.Client i) (owner : w.getServer i = none)
    (read : readFirst.run env.recv.buffer = .ok (.hello h) m)
    (hrun : (actFirst c env.hello i (.hello h)).run { w.receiving env.recv i with msg := m } =
      .ok () w') : Turn c env i w w' := by
  have hgreet : w.greeting env i = (w.serverOfKey h.key).map fun q2 ↦ (q2, h, m) := by
    unfold World.greeting
    rw [if_pos ⟨slot, owner⟩, read]
  obtain ⟨found, w₁, hreg, hrun⟩ := run_bind_ok hrun
  obtain ⟨hmsg, hspec⟩ := seen_registerHello hreg
  have hkey : World.serverOfKey { w.receiving env.recv i with msg := m } h.key =
      w.serverOfKey h.key := rfl
  rw [hkey] at hspec
  cases hf : w.serverOfKey h.key with
  | none =>
    rw [hf] at hspec hgreet
    rcases hspec with ⟨rfl, _⟩
    obtain ⟨_, w₂, h₂, hreg⟩ := run_bind_ok hreg
    obtain ⟨rfl, rfl⟩ := look_ok h₂
    rw [hkey, hf] at hreg
    cases hreg
    exact .stranger m slot owner hgreet hrun
  | some q2 =>
    rw [hf] at hspec hgreet
    rcases hspec with ⟨rfl, _, hrec⟩
    cases ha : env.hello.answers h.challenge with
    | false =>
      rw [ha] at hreg hrun
      exact .refused q2 h m w₁ slot owner hgreet ha hreg hrun
    | true =>
      rw [ha] at hreg hrun hrec
      obtain ⟨_, cmds, m', hread, hexec⟩ := parseMessage_ok hrun
      refine .hello q2 h m w₁ cmds m' slot owner hgreet ha ?_ hreg hexec
      have hcmds : (w₁.servers q2).commands c w₁.msg = some cmds := by
        unfold Q2Server.commands
        rw [hread]
      rw [commands_congr c (hrec rfl), hmsg] at hcmds
      unfold World.heard
      rw [owner, hgreet]
      dsimp only [Option.map_some]
      rw [if_pos ha]
      exact congrArg (Option.map fun cmds ↦ (q2, cmds)) hcmds

/-- Serving a slot is one of the turns. -/
theorem turn_of_serveSlot {c : Crypto} {env : Answer} {i : Nat} {w w' : World N}
    (h : (serveSlot c env i).run w = .ok () w') : Turn c env i w w' := by
  rcases serveSlot_ok h with ⟨hready, rfl⟩ | ⟨hr, hl, hs⟩ | ⟨hr, hl, hs⟩
  · exact .idle rfl fun slot ↦ Bool.false_ne_true (hready.symm.trans slot.1)
  · cases ha : env.accept with
    | none =>
      rw [ha] at hs
      cases hs
      exact .idle rfl fun slot ↦ slot.2 hl
    | some fd =>
      rw [ha] at hs
      exact .accept fd hr hl ha hs
  · have hslot : w.Client i := ⟨hr, hl⟩
    cases hs with
    | hangUp q2 owner ended run => exact .hangUp q2 hslot owner ended run
    | message q2 owner some run =>
      obtain ⟨_, cmds, m, hread, hexec⟩ := parseMessage_ok run
      refine .message q2 cmds m hslot owner ?_ hexec
      have hcmds : (w.servers q2).commands c env.recv.buffer = Option.some cmds := by
        unfold Q2Server.commands
        have hread' : (readCommands parseRounds).run
            ((w.servers q2).plainMessage c env.recv.buffer) = .ok cmds m := hread
        rw [hread']
      unfold World.heard
      rw [owner]
      dsimp only
      rw [if_pos ⟨hslot, some⟩, hcmds]
      rfl
    | first owner first m read run =>
      cases first with
      | peer request => exact .peer request m hslot owner read run
      | stranger =>
        refine .stranger m hslot owner ?_ run
        unfold World.greeting
        rw [if_pos ⟨hslot, owner⟩, read]
      | hello h => exact turn_of_hello hslot owner read run

/-- The slot of a client is none of the listener's. -/
theorem World.Client.inTable {w : World N} {i : Nat} (h : w.Client i) (hw : w.core.Wf)
    (hi : i < w.socketCount) : w.core.InTable i := by
  refine ⟨Nat.one_le_iff_ne_zero.mpr fun hz ↦ h.2 ?_, hi⟩
  rw [hz]
  exact hw.listener

/-- A greeting is a HELLO with the key of its server. -/
theorem greeting_some {w : World N} {env : Answer} {i : Nat} {q2 : Fin N} {h : Hello}
    {m : MsgBuffer} (greeting : w.greeting env i = some (q2, h, m)) :
    readFirst.run env.recv.buffer = .ok (.hello h) m ∧ w.serverOfKey h.key = some q2 := by
  unfold World.greeting at greeting
  split at greeting
  · split at greeting
    · next hello rest hread =>
      obtain ⟨q, hq, he⟩ := Option.map_eq_some_iff.mp greeting
      cases he
      exact ⟨hread, hq⟩
    · cases greeting
  · cases greeting

/-- A greeting comes on a slot of a client that has no owner. -/
theorem client_of_greeting {w : World N} {env : Answer} {i : Nat} {q2 : Fin N} {h : Hello}
    {m : MsgBuffer} (greeting : w.greeting env i = some (q2, h, m)) :
    w.Client i ∧ w.getServer i = none := by
  by_contra hno
  unfold World.greeting at greeting
  rw [if_neg hno] at greeting
  cases greeting

/-- A HELLO that is registered leaves table and records in agreement. -/
theorem core_register {c : Crypto} {env : Answer} {i : Nat} {q2 : Fin N} {h : Hello}
    {m : MsgBuffer} {found : Option (Fin N)} {w w₁ : World N}
    (greeting : w.greeting env i = some (q2, h, m))
    (register : (registerHello c env.hello i h).run { w.receiving env.recv i with msg := m } =
      .ok found w₁) : w₁.core = w.core.bind q2 i h.port h.maxClients := by
  have hkey := (greeting_some greeting).2
  have hspec := (seen_registerHello register).2
  have hkey' : World.serverOfKey { w.receiving env.recv i with msg := m } h.key = some q2 := hkey
  rw [hkey'] at hspec
  have hcore : World.core { w.receiving env.recv i with msg := m } = w.core :=
    core_receiving w env.recv i
  rw [hspec.2.1, hcore]

/-- A HELLO that is answered leaves the record by which the commands behind it are received. -/
theorem reception_register {c : Crypto} {env : Answer} {i : Nat} {q2 : Fin N} {h : Hello}
    {m : MsgBuffer} {found : Option (Fin N)} {w w₁ : World N}
    (greeting : w.greeting env i = some (q2, h, m))
    (answers : env.hello.answers h.challenge = true)
    (register : (registerHello c env.hello i h).run { w.receiving env.recv i with msg := m } =
      .ok found w₁) :
    (w₁.servers q2).reception = ((w.servers q2).greeted env.hello h).reception := by
  have hkey : World.serverOfKey { w.receiving env.recv i with msg := m } h.key = some q2 :=
    (greeting_some greeting).2
  have hspec := (seen_registerHello register).2
  rw [hkey] at hspec
  exact hspec.2.2 answers

/-- The commands that are heard in a step. -/
def moveHeard (c : Crypto) : Move → World N → Option (Fin N × List Command)
  | .poll _, _ => none
  | .serve env, w => w.heard c env w.scan

/-- A step is a return from `poll` or a turn. -/
theorem step_turn {c : Crypto} {env : Answer} {w w' : World N}
    (h : step c (.serve env) w = some w') :
    ∃ w₁, Turn c env w.scan w w₁ ∧ w' = { w₁ with scan := w.scan + 1 } := by
  obtain ⟨_, w₁, hs, rfl⟩ := step_serve h
  exact ⟨w₁, turn_of_serveSlot hs, rfl⟩

end Q2Admin
