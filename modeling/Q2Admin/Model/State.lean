import Q2Admin.Msg.Buffer
import Mathlib.Logic.Function.Basic
import Mathlib.Data.Fin.Basic

/-!
# Records and the state of the process

Library `Q2Admin.Model`. Source `server.h`. The server list never changes after
`LoadServers`, so a `q2_server_t *` is a position in it; `client_id` is a `uint8_t`
and `players` has 256 slots, so the table is a function of the id. Besides the
variables of the program the state carries a trace of its calls to the system and
of the handles it creates and releases. Console output is not part of it.
-/

namespace Q2Admin

open Exec

/-- A player slot; `server.h:130–139`. The counters behind `userinfo` are written by no
function and stay zero. -/
structure Player where
  clientId : UInt8
  name : Field 15
  userinfo : Field 512

namespace Player

/-- A slot that `memset` has cleared. -/
def zero : Player := ⟨0, Field.zero 15, Field.zero 512⟩

/-- What `%s` prints for `name`: a name without a terminator runs on into `userinfo`, and
that into the zero counters. -/
def nameStr (p : Player) : List UInt8 := cstr (p.name.bytes ++ p.userinfo.bytes)

end Player

/-- An `RSA` object: which allocation it is, and the key it holds. -/
structure RsaKey where
  handle : Nat
  key : List UInt8
  deriving DecidableEq

/-- The part of `connection_t` that is used; `server.h:146–163`. -/
structure Connection where
  aeskey : Field 16
  aeskeyCipher : Field 256
  iv : Field 16
  eCtx : Option Nat
  dCtx : Option Nat
  encrypted : Bool
  clChallenge : Field 16
  pingCount : UInt32

/-- A registered server; `server.h:184–208`. -/
structure Q2Server where
  index : Nat
  connected : Bool
  socket : Nat
  connection : Connection
  id : UInt32
  key : UInt32
  ip : Field 16
  port : UInt16
  map : Field 20
  playercount : UInt8
  maxclients : UInt8
  flags : UInt32
  name : Field 50
  enabled : Bool
  msg : MsgBuffer
  players : UInt8 → Player
  trusted : Bool
  publickey : Option RsaKey

namespace Q2Server

/-- What `%s` prints for `name`; the `lastcontact` behind it stays zero. -/
def nameStr (s : Q2Server) : List UInt8 := cstr s.name.bytes

/-- What `%s` prints for `ip`, which runs on into the two bytes of `port` and ends at the
zero `password`. -/
def ipStr (s : Q2Server) : List UInt8 :=
  cstr (s.ip.bytes ++ [(s.port &&& 0xff).toUInt8, (s.port >>> 8).toUInt8])

/-- What `%s` prints for `map`, which runs on into `playercount` and `maxclients` and ends
at the zero padding behind them. -/
def mapStr (s : Q2Server) : List UInt8 :=
  cstr (s.map.bytes ++ [s.playercount, s.maxclients])

/-- The condition under which traffic is enciphered; `server.c:331`, `parse.c:13`. -/
def secure (s : Q2Server) : Bool := s.connection.encrypted && s.trusted

end Q2Server

/-- An entry of the poll table; the two flags are the `POLLIN` bits of `events` and
`revents`. -/
structure PollFd where
  fd : Nat
  events : Bool
  revents : Bool

/-- The pointers of a server to crypto objects: `publickey`, `e_ctx` and `d_ctx`. -/
inductive Cell
  | key | eCtx | dCtx
  deriving DecidableEq

/-- What the process does that is visible from outside its variables. -/
inductive Event
  /-- `poll` returned and reported these descriptors readable. -/
  | polled (ready : List Nat)
  | accepted (fd : Nat)
  | received (fd : Nat)
  | closed (fd : Nat)
  /-- A `send`, with the text it stands for and the bytes on the wire. -/
  | sent (fd : Nat) (plain wire : List UInt8)
  /-- A HELLO bound the socket to the server at this position of the list. -/
  | bound (q2 : Nat) (fd : Nat)
  /-- `VerifyClientChallenge` returned true for the server, whose socket this is. -/
  | verified (q2 : Nat) (fd : Nat)
  /-- A crypto object came into being for a pointer of the server at this position of the list,
  was used through it, was freed through it. -/
  | created (q2 : Nat) (cell : Cell) (handle : Nat)
  | used (q2 : Nat) (cell : Cell) (handle : Nat)
  | released (q2 : Nat) (cell : Cell) (handle : Nat)
  deriving DecidableEq

/-- The events that sessions are made of. -/
def Event.isSession : Event → Bool
  | .accepted _ | .closed _ | .bound _ _ | .verified _ _ => true
  | _ => false

/-- The socket has been accepted and not been closed since; the trace is newest first. -/
def isOpen (fd : Nat) : List Event → Bool
  | [] => false
  | .accepted g :: t => if g = fd then true else isOpen fd t
  | .closed g :: t => if g = fd then false else isOpen fd t
  | _ :: t => isOpen fd t

/-- The state of the process with `N` servers loaded. -/
structure World (N : Nat) where
  /-- `q2srvlist`, in list order. -/
  servers : Fin N → Q2Server
  listener : Nat
  /-- The array behind `sockets`, as long as it is needed. -/
  sockets : Nat → PollFd
  socketCount : Nat
  /-- The loop variable of the scan in `RunServer`. -/
  scan : Nat
  /-- The message buffer of `RunServer`. -/
  msg : MsgBuffer
  /-- The buffers of `va` and the number of its calls. -/
  vaStrings : Fin 8 → List UInt8
  vaIndex : UInt16
  /-- The next allocation of a crypto handle. -/
  nextHandle : Nat
  trace : List Event

/-- Programs of the process. -/
abbrev M (N : Nat) := EStateM Fault (World N)

variable {N : Nat} {α : Type}

/-- The message that is being parsed. -/
def inMsg : Lens (World N) MsgBuffer where
  get w := w.msg
  set m w := { w with msg := m }
  get_set _ _ := rfl
  set_get _ := rfl
  set_set _ _ _ := rfl

/-- Run a reader on the message that is being parsed. -/
def onMsg (x : BufM α) : M N α := zoom inMsg x

namespace World

/-- Replace the record of one server. -/
def updateServer (w : World N) (q2 : Fin N) (f : Q2Server → Q2Server) : World N :=
  { w with servers := Function.update w.servers q2 (f (w.servers q2)) }

/-- An updated record is what has been made of it. -/
@[simp] theorem updateServer_self (w : World N) (q2 : Fin N) (f : Q2Server → Q2Server) :
    (w.updateServer q2 f).servers q2 = f (w.servers q2) := Function.update_self _ _ _

/-- The records of other servers stay as they are. -/
@[simp] theorem updateServer_of_ne (w : World N) {q2 s : Fin N} (f : Q2Server → Q2Server)
    (h : s ≠ q2) : (w.updateServer q2 f).servers s = w.servers s :=
  Function.update_of_ne h _ _

end World

/-- The output buffer of a server. -/
def outMsg (q2 : Fin N) : Lens (World N) MsgBuffer where
  get w := (w.servers q2).msg
  set m w := w.updateServer q2 fun s ↦ { s with msg := m }
  get_set _ _ := by simp
  set_get w := by simp [World.updateServer]
  set_set _ _ _ := by simp [World.updateServer]

/-- Run a writer on the output buffer of a server. -/
def onOut (q2 : Fin N) (x : BufM α) : M N α := zoom (outMsg q2) x

/-- Read a part of the state. -/
def look (v : World N → α) : M N α := do
  let w ← get
  pure (v w)

/-- The record of a server. -/
def server (q2 : Fin N) : M N Q2Server := look fun w ↦ w.servers q2

/-- Assign fields of the record of a server. -/
def modifyServer (q2 : Fin N) (f : Q2Server → Q2Server) : M N Unit :=
  modify fun w ↦ w.updateServer q2 f

/-- Note an event in the trace. -/
def logEvent (e : Event) : M N Unit := modify fun w ↦ { w with trace := e :: w.trace }

/-- Allocate a crypto object for a pointer of a server. -/
def createHandle (q2 : Fin N) (cell : Cell) : M N Nat := do
  let h ← look World.nextHandle
  modify fun w ↦ { w with nextHandle := h + 1 }
  logEvent (.created q2 cell h)
  pure h

/-- Every server, in list order: the range of `FOR_EACH_SERVER`. -/
def serverList (N : Nat) : List (Fin N) := List.finRange N

/-- The library calls whose code is not part of the program. -/
structure Crypto where
  /-- `RSA_public_decrypt` with a key: the recovered block, or a failure. -/
  rsaPublicDecrypt : List UInt8 → List UInt8 → Option (List UInt8)
  /-- AES-128-CBC with padding, for a key and an initialisation vector. -/
  aesEncrypt : Field 16 → Field 16 → List UInt8 → List UInt8
  aesEncrypt_length : ∀ key iv plain,
    (aesEncrypt key iv plain).length = 16 * (plain.length / 16 + 1)
  aesDecrypt : Field 16 → Field 16 → List UInt8 → List UInt8
  aesDecrypt_length_le : ∀ key iv cipher, (aesDecrypt key iv cipher).length ≤ cipher.length
  /-- `inet_pton`, which leaves some four bytes even for an invalid address. -/
  inetPton : List UInt8 → Field 4

/-- A cipher that only pads, and signatures that are the key in front of the signed block:
the laws of `Crypto` can be met. -/
def Crypto.clear : Crypto where
  rsaPublicDecrypt key cipher :=
    if cipher.take key.length = key then some (cipher.drop key.length) else none
  aesEncrypt _ _ plain :=
    let pad := 16 * (plain.length / 16 + 1) - plain.length
    plain ++ List.replicate pad pad.toUInt8
  aesEncrypt_length _ _ plain := by
    rw [List.length_append, List.length_replicate]
    omega
  aesDecrypt _ _ cipher := cipher.take (cipher.length - (cipher.getLast?.getD 0).toNat)
  aesDecrypt_length_le _ _ cipher := by
    rw [List.length_take]
    exact Nat.min_le_right _ _
  inetPton _ := .zero 4

end Q2Admin
