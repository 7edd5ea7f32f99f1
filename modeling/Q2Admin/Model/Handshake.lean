import Q2Admin.Model.Text

/-!
# The trust handshake

Library `Q2Admin.Model`. Source `server.c:210–311` and `crypto.c:35–86`. A HELLO is
answered with the client's challenge signed and a fresh challenge of our own; an AUTH
brings that challenge back, signed by the client. What the file system, the random
generator and the RSA operations answer is chosen by the environment.
-/

namespace Q2Admin

open Exec

variable {N : Nat}

/-- What opening and reading a client's public key comes to. -/
inductive KeyFile
  /-- `fopen` fails. -/
  | missing
  /-- `RSA_new` fails. -/
  | noMemory
  /-- The file holds no public key. -/
  | unreadable
  | holds (key : List UInt8)
  deriving DecidableEq

/-- What signing a challenge with our private key comes to. -/
inductive Signature
  /-- `fopen` fails, or the file holds no private key. -/
  | noKey
  /-- `RSA_private_encrypt` returns -1. -/
  | failed
  | signed (cipher : List UInt8)
  deriving DecidableEq

/-- What the environment supplies while a HELLO is answered. -/
structure HelloEnv where
  keyFile : KeyFile
  /-- The challenge that `RAND_bytes` produces. -/
  challenge : Field 16
  /-- The signature for a challenge. -/
  sign : Field 16 → Signature
  aeskey : Field 16
  iv : Field 16
  /-- The session key and initialisation vector under the client's public key. -/
  aeskeyCipher : Field 256

/-- `LoadClientPublicKey`; `server.c:210–227`. A missing file reaches `fclose` as a null
pointer. -/
def loadClientPublicKey (env : HelloEnv) (q2 : Fin N) : M N Unit :=
  match env.keyFile with
  | .missing => throw .nullDeref
  | .noMemory => modifyServer q2 fun s ↦ { s with publickey := none }
  | .unreadable => do
    let _ ← createHandle q2 .key
    modifyServer q2 fun s ↦ { s with publickey := none }
  | .holds key => do
    let h ← createHandle q2 .key
    modifyServer q2 fun s ↦ { s with publickey := some ⟨h, key⟩ }

/-- `Sign_Client_Challenge`: the buffer `cipher` and the length returned, where the failure
of `RSA_private_encrypt` becomes the largest `size_t`; `crypto.c:35–62`. -/
def signClientChallenge (env : HelloEnv) (challenge : Field 16) : List UInt8 × Nat :=
  match env.sign challenge with
  | .noKey => ([], 0)
  | .failed => ([], 0xffffffffffffffff)
  | .signed cipher => (cipher, cipher.length)

/-- The session key for a connection that asked for one; `server.c:257–267`. -/
def sendSessionKey (env : HelloEnv) (q2 : Fin N) : M N Unit := do
  let s ← server q2
  if !s.connection.encrypted then pure ()
  else
    modifyServer q2 fun s ↦
      { s with connection := { s.connection with aeskey := env.aeskey, iv := env.iv } }
    match s.publickey with
    | none => throw .nullDeref
    | some k =>
      logEvent (.used q2 .key k.handle)
      modifyServer q2 fun s ↦
        { s with connection := { s.connection with aeskeyCipher := env.aeskeyCipher } }
      onOut q2 (msgWriteData env.aeskeyCipher.bytes rsaLen)

/-- `ServerAuthResponse`; `server.c:234–273`. A private key longer than 2048 bits overruns
`cipher`. -/
def serverAuthResponse (c : Crypto) (env : HelloEnv) (q2 : Fin N) (challenge : Field 16) :
    M N Bool := do
  modifyServer q2 fun s ↦
    { s with
      connection := { s.connection with clChallenge := strncpy 16 env.challenge.bytes } }
  let (cipher, len) := signClientChallenge env challenge
  if rsaLen < cipher.length then throw .overwrite
  else if len = 0 then
    let s ← server q2
    release q2 .key (s.publickey.map RsaKey.handle)
    pure false
  else
    onOut q2 do
      msgWriteByte scmdHelloAck
      msgWriteShort len.toUInt16
      msgWriteData cipher len
    sendSessionKey env q2
    onOut q2 (msgWriteData env.challenge.bytes challengeLen)
    sendBuffer c q2
    pure true

/-- The client has returned the challenge that is stored for it. -/
def Q2Server.accepts (c : Crypto) (s : Q2Server) (cipher : List UInt8) : Bool :=
  match s.publickey with
  | none => false
  | some k => c.rsaPublicDecrypt k.key cipher = some s.connection.clChallenge.bytes

/-- Contexts for both directions, and trust; `server.c:302–304`. -/
def grantTrust (q2 : Fin N) : M N Unit := do
  let e ← createHandle q2 .eCtx
  modifyServer q2 fun s ↦ { s with connection := { s.connection with eCtx := some e } }
  let d ← createHandle q2 .dCtx
  modifyServer q2 fun s ↦ { s with connection := { s.connection with dCtx := some d } }
  modifyServer q2 fun s ↦ { s with trusted := true }
  let s ← server q2
  logEvent (.verified q2 s.socket)

/-- `VerifyClientChallenge` behind its readers, with the block received; the copy of it
has `RSA_LEN` bytes and the block recovered has `CHALLENGE_LEN`; `server.c:289–311`. A key that has
been freed verifies as a live one: only the trace tells them apart. -/
def checkAnswer (c : Crypto) (q2 : Fin N) (cipher : List UInt8) : M N Bool := do
  if rsaLen < cipher.length then throw .overwrite
  else
    let s ← server q2
    match s.publickey with
    | none => throw .nullDeref
    | some k =>
      logEvent (.used q2 .key k.handle)
      match c.rsaPublicDecrypt k.key cipher with
      | none => pure false
      | some plaintext =>
        if challengeLen < plaintext.length then throw .overwrite
        else if plaintext.length ≠ challengeLen then pure false
        else if plaintext = s.connection.clChallenge.bytes then
          grantTrust q2
          pure true
        else pure false

/-- `VerifyClientChallenge`; `server.c:279–311`. -/
def verifyClientChallenge (c : Crypto) (q2 : Fin N) : M N Bool := do
  let len ← onMsg msgReadShort
  let cipher ← onMsg (msgReadData len.toNat)
  checkAnswer c q2 cipher.bytes

/-- `hello_t`; `server.h:170–177`. -/
structure Hello where
  key : UInt32
  version : UInt32
  port : UInt16
  maxClients : UInt8
  encrypted : UInt8
  challenge : Field 16

/-- `ParseHello`; `parse.c:74–82`. -/
def parseHello : BufM Hello := do
  let key ← msgReadLong
  let version ← msgReadLong
  let port ← msgReadShort
  let maxClients ← msgReadByte
  let encrypted ← msgReadByte
  let challenge ← msgReadData challengeLen
  pure ⟨key, version, port, maxClients, encrypted, challenge⟩

/-- The server that a HELLO with this key is for, the first one in list order. -/
def World.serverOfKey (w : World N) (key : UInt32) : Option (Fin N) :=
  (serverList N).find? fun q2 ↦ key = (w.servers q2).key

/-- The loop body of `new_server` for the server with the key; `server.c:521–528`. -/
def bindServer (env : HelloEnv) (h : Hello) (index : Nat) (q2 : Fin N) : M N Unit := do
  let p ← look fun w ↦ w.sockets index
  modifyServer q2 fun s ↦
    { s with
      index := index
      socket := p.fd
      connected := true
      port := h.port
      maxclients := h.maxClients
      connection := { s.connection with encrypted := h.encrypted ≠ 0 } }
  logEvent (.bound q2 p.fd)
  loadClientPublicKey env q2

/-- `new_server` behind its readers; `server.c:519–543`. -/
def registerHello (c : Crypto) (env : HelloEnv) (index : Nat) (h : Hello) :
    M N (Option (Fin N)) := do
  let found ← look fun w ↦ w.serverOfKey h.key
  match found with
  | none => pure none
  | some q2 =>
    bindServer env h index q2
    let answered ← serverAuthResponse c env q2 h.challenge
    if answered then pure (some q2)
    else
      sendError c q2 errEncryption 0xff (ascii "Problems encrypting sv_challenge")
      pure none

/-- `new_server`; `server.c:508–544`. -/
def newServer (c : Crypto) (env : HelloEnv) (index : Nat) : M N (Option (Fin N)) := do
  let cmd ← onMsg msgReadByte
  if cmd ≠ ClientCmd.hello.byte then pure none
  else
    let h ← onMsg parseHello
    registerHello c env index h

end Q2Admin
