import Q2Admin.Base.While
import Q2Admin.Model.Parse

/-!
# The event loop

Library `Q2Admin.Model`. Source `server.c:105–146`, `server.c:551–661`, `parse.c:263–272`,
`peer.c` and `util.c:156–173`. A state of the loop is one at an iteration boundary of the scan
over the poll table. What `poll`, `accept`, `recv` and the handshake's library calls answer is
the label of a step; a run ends where the program faults.
-/

namespace Q2Admin

open Exec

variable {N : Nat}

/-- The list that a peer gets, in list order; `peer.c:30–40`. -/
def peerList (c : Crypto) (servers : List Q2Server) : BufM Unit := do
  msgWriteShort servers.length.toUInt16
  forM servers fun s ↦ do
    msgWriteData (c.inetPton s.ipStr).bytes 4
    msgWriteShort s.port
    msgWriteString (some s.nameStr)

/-- `P_GetServerList`; `peer.c:15–44`. -/
def pGetServerList (c : Crypto) (index : Nat) : M N Unit := do
  let w ← get
  let listed := ((serverList N).map w.servers).filter fun s ↦ s.connected && s.trusted
  match (peerList c listed).run .zero with
  | .error e _ => throw e
  | .ok _ m =>
    logEvent (.sent (w.sockets index).fd m.contents m.contents)
    logEvent (.closed (w.sockets index).fd)

/-- `ParsePeerRequest`; `parse.c:263–272`. -/
def parsePeerRequest (c : Crypto) (index : Nat) : M N Unit := do
  let request ← onMsg msgReadByte
  if request = peerGetServers then pGetServerList c index else pure ()

/-- What `recv` stores, at most the size of the buffer. -/
structure Packet where
  bytes : List UInt8
  length_le : bytes.length ≤ msgSize

/-- What `recv` answers. -/
inductive Recv
  | failed
  | packet (p : Packet)

/-- The buffer after `recv`; a failure becomes the largest `size_t`. -/
def Recv.buffer : Recv → MsgBuffer
  | failed => { MsgBuffer.zero with length := 0xffffffffffffffff }
  | packet p => .received p.bytes

/-- What the environment answers while one slot is served. -/
structure Answer where
  accept : Option Nat
  recv : Recv
  hello : HelloEnv

/-- The branch for the listener; `server.c:595–611`. -/
def acceptClient (accept : Option Nat) : M N Unit :=
  match accept with
  | none => pure ()
  | some fd => do
    logEvent (.accepted fd)
    addServerSocket fd

/-- The branch for a connection that has ended; `server.c:619–630`. -/
def hangUp (owner : Option (Fin N)) (i : Nat) : M N Unit :=
  match owner with
  | none => throw .nullDeref
  | some q2 => do
    modifyServer q2 fun s ↦ { s with connected := false, index := 0, socket := 0 }
    let p ← look fun w ↦ w.sockets i
    logEvent (.closed p.fd)
    removeServerSocket

/-- The first message on a socket; `server.c:633–656`. -/
def firstMessage (c : Crypto) (env : HelloEnv) (i : Nat) : M N Unit := do
  let peer ← onMsg msgReadLong
  if peer = magicPeer then
    parsePeerRequest c i
    removeServerSocket
  else if peer ≠ magicClient then
    let p ← look fun w ↦ w.sockets i
    invalidClient p.fd
  else
    let q2 ← newServer c env i
    match q2 with
    | none =>
      let p ← look fun w ↦ w.sockets i
      invalidClient p.fd
    | some q2 => parseMessage c q2

/-- The branch for a client; `server.c:613–657`. -/
def serveClient (c : Crypto) (recv : Recv) (env : HelloEnv) (i : Nat) : M N Unit := do
  let owner ← getServer i
  let p ← look fun w ↦ w.sockets i
  logEvent (.received p.fd)
  modify fun w ↦ { w with msg := recv.buffer }
  if recv.buffer.length = 0 then hangUp owner i
  else
    match owner with
    | some q2 => parseMessage c q2
    | none => firstMessage c env i

/-- The body of the scan for one slot; `server.c:593–659`. -/
def serveSlot (c : Crypto) (env : Answer) (i : Nat) : M N Unit := do
  let p ← look fun w ↦ w.sockets i
  let listener ← look World.listener
  if p.revents then
    if p.fd = listener then acceptClient env.accept
    else serveClient c env.recv env.hello i
  else pure ()

/-- A step of the loop and what the environment answers in it. -/
inductive Move
  /-- `poll` returns and reports these descriptors readable. -/
  | poll (ready : List Nat)
  /-- The scan serves its next slot. -/
  | serve (env : Answer)

/-- `accept` returns a descriptor that is not open. -/
def Answer.fresh (env : Answer) (w : World N) : Bool :=
  match env.accept with
  | none => true
  | some fd => fd ≠ w.listener && !isOpen fd w.trace

/-- The `revents` that `poll` reports for the first `socketCount` slots. -/
def World.pollResult (w : World N) (ready : List Nat) : Nat → PollFd := fun i ↦
  if i < w.socketCount then
    { w.sockets i with revents := decide ((w.sockets i).fd ∈ ready) }
  else w.sockets i

/-- One step of `RunServer`; `server.c:585–660`. A scan goes on while its loop variable is
below the current `socket_count`, and `poll` follows. -/
def step (c : Crypto) : Move → World N → Option (World N)
  | .poll ready, w =>
    if w.scan < w.socketCount then none
    else some { w with sockets := w.pollResult ready, scan := 0, trace := .polled ready :: w.trace }
  | .serve env, w =>
    if w.scan < w.socketCount ∧ env.fresh w then
      match (serveSlot c env w.scan).run w with
      | .ok _ w' => some { w' with scan := w.scan + 1 }
      | .error _ _ => none
    else none

/-- The columns of the database that `LoadServers` reads. -/
structure Row where
  id : UInt32
  key : UInt32
  flags : UInt32
  name : List UInt8
  ip : List UInt8
  port : UInt16
  enabled : Bool

/-- The record of a row; `server.c:124–134`. -/
def Row.load (r : Row) : Q2Server where
  index := 0
  connected := false
  socket := 0
  connection :=
    { aeskey := .zero 16, aeskeyCipher := .zero 256, iv := .zero 16, eCtx := none, dCtx := none,
      encrypted := false, clChallenge := .zero 16, pingCount := 0 }
  id := r.id
  key := r.key
  ip := strncpy 16 r.ip
  port := r.port
  map := .zero 20
  playercount := 0
  maxclients := 0
  flags := r.flags
  name := strncpy 50 r.name
  enabled := r.enabled
  msg := .zero
  players := fun _ ↦ Player.zero
  trusted := false
  publickey := none

/-- The state in which the loop is entered; the rest of `sockets` is as `malloc` left it;
`server.c:551–583`. -/
def initial (rows : Fin N → Row) (listener : Nat) (junk : Nat → PollFd) : World N where
  servers q2 := (rows q2).load
  listener := listener
  sockets := Function.update junk 0 { junk 0 with fd := listener, events := true }
  socketCount := 1
  scan := 1
  msg := .zero
  vaStrings := fun _ ↦ []
  vaIndex := 0
  nextHandle := 0
  trace := []

/-- `SIGINT`, the signal for which `main` installs the handler; `server.c:670`. -/
def sigint : Nat := 2

/-- What `SignalCatcher` does, one thing after another: the test of a slot, and the calls. -/
inductive Teardown
  | visit (slot : Nat)
  | close (fd : Nat)
  | closeDatabase
  | exit
  deriving DecidableEq

/-- The loop variable of `SignalCatcher`, a `uint8_t`, and what has been done. -/
structure SignalState where
  i : UInt8
  done : List Teardown

/-- A round for one slot; `util.c:165–167`. -/
def World.teardown (w : World N) (slot : Nat) : List Teardown :=
  if (w.sockets slot).fd ≠ 0 then [.visit slot, .close (w.sockets slot).fd] else [.visit slot]

/-- The loop of `SignalCatcher`; `util.c:164–168`. -/
def signalRound (w : World N) (st : SignalState) : SignalState ⊕ List Teardown :=
  if st.i.toNat < w.socketCount then .inl ⟨st.i + 1, st.done ++ w.teardown st.i.toNat⟩
  else .inr st.done

/-- `SignalCatcher`, if its loop stops within as many rounds as there is fuel;
`util.c:156–173`. -/
def signalCatcher (fuel : Nat) (w : World N) (sig : Nat) : Option (List Teardown) :=
  if sig = sigint then
    (rounds (signalRound w) fuel ⟨0, []⟩).map fun done ↦ done ++ [.closeDatabase, .exit]
  else some []

end Q2Admin
