import Q2Admin.Base.CString

/-!
# Commands of the wire protocol

Library `Q2Admin.Model`. Source `server.h:51–52` and the enumerations of
`server.h:246–317`. A message from a game server is a sequence of commands, each a
command byte and its fields.
-/

namespace Q2Admin

/-- The first long of a game server's connection; `server.h:51`. -/
def magicClient : UInt32 := 0x43413251

/-- The first long of a peer's connection; `server.h:52`. -/
def magicPeer : UInt32 := 0x50413251

/-- `CHALLENGE_LEN`; `server.h:65`. -/
def challengeLen : Nat := 16
/-- `RSA_LEN`; `server.h:68`. -/
def rsaLen : Nat := 256

/-- `ra_client_cmd_t`; `server.h:246–261`. -/
inductive ClientCmd
  | null | hello | quit | connect | disconnect | playerlist | playerupdate | print | command
  | players | frag | map | ping | auth
  deriving DecidableEq, Repr

namespace ClientCmd

/-- The enumerators in the order of their values. -/
def all : List ClientCmd :=
  [null, hello, quit, connect, disconnect, playerlist, playerupdate, print, command, players,
    frag, map, ping, auth]

/-- The value of an enumerator. -/
def byte : ClientCmd → UInt8
  | null => 0
  | hello => 1
  | quit => 2
  | connect => 3
  | disconnect => 4
  | playerlist => 5
  | playerupdate => 6
  | print => 7
  | command => 8
  | players => 9
  | frag => 10
  | map => 11
  | ping => 12
  | auth => 13

/-- The enumerator with a value, if there is one. -/
def ofByte (b : UInt8) : Option ClientCmd := all.find? fun c ↦ c.byte = b

/-- A command of the client is found by its byte. -/
@[simp] theorem ofByte_byte (c : ClientCmd) : ofByte c.byte = some c := by
  cases c <;> rfl

/-- A byte names at most one enumerator. -/
theorem byte_of_ofByte {b : UInt8} {c : ClientCmd} (h : ofByte b = some c) : c.byte = b := by
  have hp := List.find?_some h
  simpa only [decide_eq_true_eq] using hp

end ClientCmd

/-- `remote_cmd_command_t`; `server.h:284–288`. -/
inductive CommandKind
  | teleport | invite | whois
  deriving DecidableEq, Repr

namespace CommandKind

/-- The value of an enumerator. -/
def byte : CommandKind → UInt8
  | teleport => 0
  | invite => 1
  | whois => 2

/-- The enumerator with a value, if there is one. -/
def ofByte (b : UInt8) : Option CommandKind :=
  [teleport, invite, whois].find? fun k ↦ k.byte = b

/-- A kind of command is found by its byte. -/
@[simp] theorem ofByte_byte (k : CommandKind) : ofByte k.byte = some k := by
  cases k <;> rfl

/-- The byte by which a kind of command is found is its byte. -/
theorem byte_of_ofByte {b : UInt8} {k : CommandKind} (h : ofByte b = some k) :
    k.byte = b := by
  have hp := List.find?_some h
  simpa only [decide_eq_true_eq] using hp

end CommandKind

/-- `SCMD_HELLOACK`, the first value of `ra_server_cmd_t` that is sent; `server.h:269–276`. -/
def scmdHelloAck : UInt8 := 1
/-- `SCMD_ERROR`. -/
def scmdError : UInt8 := 2
/-- `SCMD_PONG`. -/
def scmdPong : UInt8 := 3
/-- `SCMD_COMMAND`. -/
def scmdCommand : UInt8 := 4
/-- `SCMD_SAYCLIENT`. -/
def scmdSayClient : UInt8 := 5
/-- `SCMD_SAYALL`. -/
def scmdSayAll : UInt8 := 6
/-- `SCMD_TRUSTED`. -/
def scmdTrusted : UInt8 := 8

/-- `PRINT_HIGH`; `server.h:297`. -/
def printHigh : UInt8 := 2

/-- `ERR_UNAUTHORIZED`; `server.h:310`. -/
def errUnauthorized : UInt8 := 200
/-- `ERR_ENCRYPTION`; `server.h:312`. -/
def errEncryption : UInt8 := 202

/-- `PEER_GETSERVERS`; `server.h:315–317`. -/
def peerGetServers : UInt8 := 0

end Q2Admin
