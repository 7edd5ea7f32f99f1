import Q2Admin.Model.State
import Q2Admin.Model.Protocol

/-!
# Sending, the poll table and closing

Library `Q2Admin.Model`. Source `server.c:317–415`, `server.c:491–502` and
`crypto.c:94–146`. The poll table is rebuilt from the server records whenever a socket
goes away: `removeServerSocket` lists the sockets of connected servers in list order.
-/

namespace Q2Admin

open Exec

variable {N : Nat}

/-- `SymmetricEncrypt` into a work buffer of `0xffff` bytes; `crypto.c:94–119`. The model enciphers
with a context that has been freed as with a live one: only the trace tells them apart. -/
def symmetricEncrypt (c : Crypto) (q2 : Fin N) (src : List UInt8) : M N (List UInt8) := do
  let s ← server q2
  match s.connection.eCtx with
  | none => throw .nullDeref
  | some h =>
    logEvent (.used q2 .eCtx h)
    let dest := c.aesEncrypt s.connection.aeskey s.connection.iv src
    if msgSize < dest.length then throw .overwrite else pure dest

/-- `SymmetricDecrypt` of the message in a buffer; `crypto.c:124–146`. The length is passed
on as an `int`, and a negative one deciphers nothing. A freed context serves as a live one. -/
def symmetricDecrypt (c : Crypto) (q2 : Fin N) (src : MsgBuffer) : M N (List UInt8) := do
  let s ← server q2
  match s.connection.dCtx with
  | none => throw .nullDeref
  | some h =>
    logEvent (.used q2 .dCtx h)
    if src.length ≤ msgSize then
      pure (c.aesDecrypt s.connection.aeskey s.connection.iv src.contents)
    else pure []

/-- What goes on the wire for a message; `server.c:331–336`. -/
def wireForm (c : Crypto) (q2 : Fin N) (plain : List UInt8) : M N (List UInt8) := do
  let s ← server q2
  if s.secure then symmetricEncrypt c q2 plain else pure plain

/-- `SendBuffer`; `server.c:317–342`. The ciphertext only passes through `msg`, which is
cleared in any case. -/
def sendBuffer (c : Crypto) (q2 : Fin N) : M N Unit := do
  let s ← server q2
  if !s.connected then pure ()
  else if s.msg.length = 0 then pure ()
  else
    let plain := s.msg.contents
    let wire ← wireForm c q2 plain
    let p ← look fun w ↦ w.sockets s.index
    logEvent (.sent p.fd plain wire)
    modifyServer q2 fun s ↦ { s with msg := .zero }

/-- `add_server_socket`; `server.c:349–354`. The table of the model has slots behind the block
that the program has allocated. -/
def addServerSocket (socket : Nat) : M N Unit :=
  modify fun w ↦
    { w with
      sockets := Function.update w.sockets w.socketCount
        { w.sockets w.socketCount with fd := socket, events := true }
      socketCount := w.socketCount + 1 }

/-- The body of the loop of `remove_server_socket`, which returns the next free slot;
`server.c:366–375`. -/
def listServer (i : Nat) (q2 : Fin N) : M N Nat := do
  let s ← server q2
  if !s.connected then pure i
  else
    modify fun w ↦
      { w with
        sockets := Function.update w.sockets i
          { w.sockets i with fd := s.socket, events := true } }
    modifyServer q2 fun s ↦ { s with index := i }
    pure (i + 1)

/-- `remove_server_socket`; `server.c:361–378`. Slot 0 is the listener's. -/
def removeServerSocket : M N Unit := do
  let i ← (serverList N).foldlM listServer 1
  modify fun w ↦ { w with socketCount := i }

/-- `InvalidClient`; `server.c:384–389`. -/
def invalidClient (socket : Nat) : M N Unit := do
  logEvent (.closed socket)
  removeServerSocket

/-- Free a crypto object unless the pointer to it is null. The model goes on behind a second
`free` of the same object, which only the trace shows. -/
def release (q2 : Fin N) (cell : Cell) (handle : Option Nat) : M N Unit :=
  match handle with
  | none => pure ()
  | some h => logEvent (.released q2 cell h)

/-- `CloseConnection`; `server.c:395–415`. The pointers keep their values. -/
def closeConnection (q2 : Fin N) : M N Unit := do
  let s ← server q2
  release q2 .key (s.publickey.map RsaKey.handle)
  release q2 .dCtx s.connection.dCtx
  release q2 .eCtx s.connection.eCtx
  logEvent (.closed s.socket)
  modifyServer q2 fun s ↦ { s with connected := false, index := 0 }
  removeServerSocket

namespace World

/-- The first server in list order whose index is this one; `server.c:491–502`. -/
def getServer (w : World N) (index : Nat) : Option (Fin N) :=
  (serverList N).find? fun q2 ↦ (w.servers q2).index = index

end World

/-- `get_server`; `server.c:491–502`. -/
def getServer (index : Nat) : M N (Option (Fin N)) := look fun w ↦ w.getServer index

end Q2Admin
