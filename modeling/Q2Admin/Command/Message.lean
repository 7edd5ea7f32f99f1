import Q2Admin.Command.Records
import Q2Admin.Model.Loop

/-!
# Messages and first messages

Library `Q2Admin.Command`. A message is deciphered if necessary, decoded and executed:
`parseMessage_ok`. The first message on a socket is a peer's request, a stranger's or a
HELLO; `firstMessage_splits` separates reading it from acting on it.
-/

namespace Q2Admin

open Exec

variable {N : Nat}

/-- The message in a buffer as the loop of `ParseMessage` sees it. -/
def Q2Server.plainMessage (c : Crypto) (s : Q2Server) (m : MsgBuffer) : MsgBuffer :=
  if s.secure then
    m.decrypted (if m.length ≤ msgSize then
      c.aesDecrypt s.connection.aeskey s.connection.iv m.contents else [])
  else m

/-- The commands of a message, unless reading them leaves the buffer. -/
def Q2Server.commands (c : Crypto) (s : Q2Server) (m : MsgBuffer) : Option (List Command) :=
  match (readCommands parseRounds).run (s.plainMessage c m) with
  | .ok cmds _ => some cmds
  | .error _ _ => none

/-- The events of deciphering: none, or the use of a crypto handle. -/
def Uses (t : List Event) : Prop := t = [] ∨ ∃ q2 cell h, t = [.used q2 cell h]

/-- The use of the context that deciphers the traffic of a server, if it is enciphered. -/
def World.deciphering (w : World N) (q2 : Fin N) : List Event :=
  if (w.servers q2).secure then
    ((w.servers q2).connection.dCtx.map (.used q2 .dCtx)).toList
  else []

/-- Deciphering a message notes the use of one context at most. -/
theorem World.uses_deciphering (w : World N) (q2 : Fin N) : Uses (w.deciphering q2) := by
  unfold deciphering
  cases (w.servers q2).secure with
  | false => exact .inl rfl
  | true =>
    cases (w.servers q2).connection.dCtx with
    | none => exact .inl rfl
    | some d => exact .inr ⟨_, _, d, rfl⟩

/-- Deciphering needs a context, and changes the message only. -/
theorem decryptMessage_ok {c : Crypto} {q2 : Fin N} {w w' : World N}
    (h : (decryptMessage c q2).run w = .ok () w') :
    ((w.servers q2).secure = true → (w.servers q2).connection.dCtx ≠ none) ∧
      w' = { w with
        msg := (w.servers q2).plainMessage c w.msg
        trace := w.deciphering q2 ++ w.trace } := by
  unfold decryptMessage at h
  unfold Q2Server.plainMessage World.deciphering
  have hserver : (server q2).run w = .ok (w.servers q2) w := rfl
  rw [run_bind_of_ok hserver] at h
  cases hs : (w.servers q2).secure with
  | false =>
    rw [hs] at h
    cases h
    exact ⟨fun h ↦ Bool.noConfusion h, rfl⟩
  | true =>
    rw [hs] at h
    obtain ⟨m, w₁, h₁, h⟩ := run_bind_ok h
    cases h₁
    obtain ⟨e, w₂, h₂, h⟩ := run_bind_ok h
    cases h
    unfold symmetricDecrypt at h₂
    rw [run_bind_of_ok hserver] at h₂
    cases hd : (w.servers q2).connection.dCtx with
    | none =>
      rw [hd] at h₂
      cases h₂
    | some d =>
      rw [hd] at h₂
      obtain ⟨_, w₃, h₃, h₂⟩ := run_bind_ok h₂
      cases h₃
      refine ⟨fun _ ↦ Option.some_ne_none d, ?_⟩
      rw [if_pos rfl, if_pos rfl]
      by_cases hl : w.msg.length ≤ msgSize
      · rw [if_pos hl] at h₂
        cases h₂
        rw [if_pos hl]
        rfl
      · rw [if_neg hl] at h₂
        cases h₂
        rw [if_neg hl]
        rfl

/-- A message that returns has been deciphered, decoded and executed. -/
theorem parseMessage_ok {c : Crypto} {q2 : Fin N} {w w' : World N}
    (h : (parseMessage c q2).run w = .ok () w') :
    ((w.servers q2).secure = true → (w.servers q2).connection.dCtx ≠ none) ∧
    ∃ cmds m,
      (readCommands parseRounds).run ((w.servers q2).plainMessage c w.msg) = .ok cmds m ∧
      (forM cmds (exec c q2)).run
        { w with msg := m, trace := w.deciphering q2 ++ w.trace } = .ok () w' := by
  obtain ⟨_, w₁, h₁, h₂⟩ := run_bind_ok h
  obtain ⟨hctx, rfl⟩ := decryptMessage_ok h₁
  obtain ⟨cmds, m, hr, hx⟩ := (parseLoop_splits c q2 parseRounds _ _ _).mp h₂
  exact ⟨hctx, cmds, m, hr, hx⟩

/-- A message that needs no deciphering is left as it is. -/
theorem decryptMessage_of_plain {c : Crypto} {q2 : Fin N} {w : World N}
    (hs : (w.servers q2).secure = false) : (decryptMessage c q2).run w = .ok () w := by
  unfold decryptMessage
  have hserver : (server q2).run w = .ok (w.servers q2) w := rfl
  rw [run_bind_of_ok hserver, hs]
  rfl

/-- Conversely, a message that needs no deciphering runs as its commands do. -/
theorem parseMessage_of_plain {c : Crypto} {q2 : Fin N} {w w' : World N} {cmds : List Command}
    {m : MsgBuffer} (hs : (w.servers q2).secure = false)
    (hr : (readCommands parseRounds).run w.msg = .ok cmds m)
    (hx : (forM cmds (exec c q2)).run { w with msg := m } = .ok () w') :
    (parseMessage c q2).run w = .ok () w' := by
  unfold parseMessage
  rw [run_bind_of_ok (decryptMessage_of_plain hs)]
  exact (parseLoop_splits c q2 parseRounds _ _ _).mpr ⟨cmds, m, hr, hx⟩

/-- The first message on a socket. -/
inductive First
  /-- A peer's magic number and the byte behind it. -/
  | peer (request : UInt8)
  /-- Another magic number, or no HELLO behind that of a client. -/
  | stranger
  | hello (h : Hello)

/-- Read the first message, as far as the event loop looks at it. -/
def readFirst : BufM First := do
  let peer ← msgReadLong
  if peer = magicPeer then do
    let request ← msgReadByte
    pure (.peer request)
  else if peer ≠ magicClient then pure .stranger
  else do
    let cmd ← msgReadByte
    if cmd ≠ ClientCmd.hello.byte then pure .stranger
    else do
      let h ← parseHello
      pure (.hello h)

/-- Turn the connection in a slot away. -/
def turnAway (i : Nat) : M N Unit := do
  let p ← look fun w ↦ w.sockets i
  invalidClient p.fd

/-- Answer a peer's request. -/
def answerPeer (c : Crypto) (i : Nat) (request : UInt8) : M N Unit :=
  if request = peerGetServers then pGetServerList c i else pure ()

/-- The state after the socket in a slot has been closed. -/
def World.shut (w : World N) (i : Nat) : World N :=
  { w with trace := .closed (w.sockets i).fd :: w.trace }

/-- Turning a connection away closes its socket and rebuilds the table. -/
theorem turnAway_run (i : Nat) (w : World N) :
    (turnAway i).run w = removeServerSocket.run (w.shut i) := rfl

/-- A record whose connection has ended. -/
def Q2Server.drop (s : Q2Server) : Q2Server :=
  { s with connected := false, index := 0, socket := 0 }

/-- The end of a server's connection drops it, closes its socket and rebuilds the table. -/
theorem hangUp_run (q2 : Fin N) (i : Nat) (w : World N) :
    (hangUp (some q2) i).run w =
      removeServerSocket.run ((w.updateServer q2 Q2Server.drop).shut i) := rfl

/-- A peer that asks for the list is sent it, and its socket is closed. -/
theorem answerPeer_ok {c : Crypto} {i : Nat} {request : UInt8} {w w' : World N}
    (h : (answerPeer c i request).run w = .ok () w') :
    request ≠ peerGetServers ∧ w' = w ∨
      request = peerGetServers ∧ ∃ servers m, (peerList c servers).run .zero = .ok () m ∧
        w' = World.shut { w with
          trace := .sent (w.sockets i).fd m.contents m.contents :: w.trace } i := by
  unfold answerPeer at h
  by_cases hr : request = peerGetServers
  · rw [if_pos hr] at h
    obtain ⟨v, w₁, h₁, h⟩ := run_bind_ok h
    cases h₁
    dsimp only at h
    split at h
    · cases h
    · next m hlist =>
      cases h
      exact .inr ⟨hr, _, m, hlist, rfl⟩
  · rw [if_neg hr] at h
    cases h
    exact .inl ⟨hr, rfl⟩

/-- Act on the first message. -/
def actFirst (c : Crypto) (env : HelloEnv) (i : Nat) : First → M N Unit
  | .peer request => do
    answerPeer c i request
    removeServerSocket
  | .stranger => turnAway i
  | .hello h => do
    let q2 ← registerHello c env i h
    match q2 with
    | none => turnAway i
    | some q2 => parseMessage c q2

/-- The first message is read, and then acted upon. -/
theorem firstMessage_eq (c : Crypto) (env : HelloEnv) (i : Nat) :
    (firstMessage c env i : M N Unit) = onMsg readFirst >>= actFirst c env i := by
  unfold firstMessage readFirst onMsg
  rw [zoom_bind, bind_assoc]
  refine congrArg _ (funext fun peer ↦ ?_)
  by_cases hp : peer = magicPeer
  · rw [if_pos hp, if_pos hp, zoom_bind, bind_assoc]
    unfold parsePeerRequest
    rw [bind_assoc]
    refine congrArg _ (funext fun request ↦ ?_)
    rw [zoom_pure, pure_bind]
    rfl
  rw [if_neg hp, if_neg hp]
  by_cases hc : peer ≠ magicClient
  · rw [if_pos hc, if_pos hc, zoom_pure, pure_bind]
    rfl
  rw [if_neg hc, if_neg hc, zoom_bind, bind_assoc]
  unfold newServer
  rw [bind_assoc]
  refine congrArg _ (funext fun cmd ↦ ?_)
  by_cases hh : cmd ≠ ClientCmd.hello.byte
  · rw [if_pos hh, if_pos hh, zoom_pure, pure_bind, pure_bind]
    rfl
  · rw [if_neg hh, if_neg hh, zoom_bind, bind_assoc, bind_assoc]
    refine congrArg _ (funext fun h ↦ ?_)
    rw [zoom_pure, pure_bind]
    rfl

/-- The first message on a socket is read, and then acted on. -/
theorem firstMessage_splits (c : Crypto) (env : HelloEnv) (i : Nat) :
    Splits inMsg (firstMessage c env i : M N Unit) readFirst (actFirst c env i) := by
  rw [firstMessage_eq]
  exact splits_zoom inMsg readFirst (actFirst c env i)

/-- The state in which what has been received is looked at. -/
def World.receiving (w : World N) (recv : Recv) (i : Nat) : World N :=
  { w with msg := recv.buffer, trace := .received (w.sockets i).fd :: w.trace }

/-- What serving a client comes to: a connection that has ended, a message from the owner of
the slot, or a first message. -/
inductive Served (c : Crypto) (recv : Recv) (env : HelloEnv) (i : Nat) (w w' : World N) : Prop
  | hangUp (q2 : Fin N) (owner : w.getServer i = some q2) (ended : recv.buffer.length = 0)
      (run : (Q2Admin.hangUp (some q2) i).run (w.receiving recv i) = .ok () w')
  | message (q2 : Fin N) (owner : w.getServer i = some q2) (some : recv.buffer.length ≠ 0)
      (run : (parseMessage c q2).run (w.receiving recv i) = .ok () w')
  | first (owner : w.getServer i = none) (first : First) (m : MsgBuffer)
      (read : readFirst.run recv.buffer = .ok first m)
      (run : (actFirst c env i first).run { w.receiving recv i with msg := m } = .ok () w')

/-- What has been received goes to the owner of the slot. -/
theorem serveClient_run (c : Crypto) (recv : Recv) (env : HelloEnv) (i : Nat) (w : World N) :
    (serveClient c recv env i).run w =
      (if recv.buffer.length = 0 then hangUp (w.getServer i) i
        else match w.getServer i with
          | some q2 => parseMessage c q2
          | none => firstMessage c env i).run (w.receiving recv i) := rfl

/-- What serving a client comes to when it returns. -/
theorem serveClient_ok {c : Crypto} {recv : Recv} {env : HelloEnv} {i : Nat} {w w' : World N}
    (h : (serveClient c recv env i).run w = .ok () w') : Served c recv env i w w' := by
  rw [serveClient_run] at h
  cases ho : w.getServer i with
  | some q2 =>
    rw [ho] at h
    by_cases hl : recv.buffer.length = 0
    · rw [if_pos hl] at h
      exact .hangUp q2 ho hl h
    · rw [if_neg hl] at h
      exact .message q2 ho hl h
  | none =>
    rw [ho] at h
    by_cases hl : recv.buffer.length = 0
    · rw [if_pos hl] at h
      cases h
    · rw [if_neg hl] at h
      obtain ⟨first, m, hr, hact⟩ := (firstMessage_splits c env i _ _ _).mp h
      exact .first ho first m hr hact

/-- What serving a slot comes to when it returns. -/
theorem serveSlot_ok {c : Crypto} {env : Answer} {i : Nat} {w w' : World N}
    (h : (serveSlot c env i).run w = .ok () w') :
    ((w.sockets i).revents = false ∧ w' = w) ∨
    ((w.sockets i).revents = true ∧ (w.sockets i).fd = w.listener ∧
      (acceptClient env.accept).run w = .ok () w') ∨
    ((w.sockets i).revents = true ∧ (w.sockets i).fd ≠ w.listener ∧
      Served c env.recv env.hello i w w') := by
  obtain ⟨p, _, h₁, h⟩ := run_bind_ok h
  obtain ⟨l, _, h₂, h⟩ := run_bind_ok h
  obtain ⟨rfl, rfl⟩ := look_ok h₁
  obtain ⟨rfl, rfl⟩ := look_ok h₂
  by_cases hr : (w.sockets i).revents = true
  · rw [if_pos hr] at h
    by_cases hl : (w.sockets i).fd = w.listener
    · rw [if_pos hl] at h
      exact .inr (.inl ⟨hr, hl, h⟩)
    · rw [if_neg hl] at h
      exact .inr (.inr ⟨hr, hl, serveClient_ok h⟩)
  · rw [if_neg hr] at h
    cases h
    exact .inl ⟨Bool.eq_false_iff.mpr hr, rfl⟩

/-- What a return from `poll` does. -/
theorem step_poll {c : Crypto} {ready : List Nat} {w w' : World N}
    (h : step c (.poll ready) w = some w') :
    w' = { w with
      sockets := w.pollResult ready
      scan := 0
      trace := .polled ready :: w.trace } := by
  unfold step at h
  dsimp only at h
  by_cases hs : w.scan < w.socketCount
  · rw [if_pos hs] at h
    cases h
  · rw [if_neg hs] at h
    exact (Option.some.inj h).symm

/-- What serving the next slot does. -/
theorem step_serve {c : Crypto} {env : Answer} {w w' : World N}
    (h : step c (.serve env) w = some w') :
    (w.scan < w.socketCount ∧ env.fresh w = true) ∧
      ∃ w₁, (serveSlot c env w.scan).run w = .ok () w₁ ∧ w' = { w₁ with scan := w.scan + 1 } := by
  unfold step at h
  dsimp only at h
  by_cases hg : w.scan < w.socketCount ∧ env.fresh w = true
  · rw [if_pos hg] at h
    cases hs : (serveSlot c env w.scan).run w with
    | ok u w₁ =>
      rw [hs] at h
      exact ⟨hg, w₁, rfl, (Option.some.inj h).symm⟩
    | error e w₁ =>
      rw [hs] at h
      cases h
  · rw [if_neg hg] at h
    cases h

end Q2Admin
