import Q2Admin.Model.Handshake
import Q2Admin.Model.Userinfo

/-!
# Messages from game servers

Library `Q2Admin.Model`. Source `parse.c`. Every handler first reads its fields and then
acts on them; the part that acts is a definition of its own where it does anything.
`ParsePlayerList` alone reads and acts by turns.
-/

namespace Q2Admin

open Exec

variable {N : Nat}

/-- `Pong`; `server.c:186–203`. -/
def pong (c : Crypto) (q2 : Fin N) : M N Unit := do
  onOut q2 (msgWriteByte scmdPong)
  modifyServer q2 fun s ↦
    { s with connection := { s.connection with pingCount := s.connection.pingCount + 1 } }
  sendBuffer c q2

/-- `ParsePrint`; `parse.c:90–106`. -/
def parsePrint : M N Unit := do
  let _ ← onMsg msgReadByte
  let _ ← onMsg msgReadString
  pure ()

/-- `ParseTeleport` behind its readers; `parse.c:145–173`. -/
def teleport (c : Crypto) (q2 : Fin N) (clientId : UInt8) (location : List UInt8) :
    M N Unit := do
  if location = [] then
    let srvstr ← buildTeleportServers
    clientText q2 clientId printHigh srvstr
    sendBuffer c q2
  else
    -- The loop does not break: the last server of that name is taken.
    let found ← look fun w ↦
      (serverList N).reverse.find? fun s ↦ (w.servers s).nameStr = location
    match found with
    | some f =>
      let s ← server f
      let reply ← va [.text (ascii "sending you to "), .str (.fixed s.ipStr),
        .text (ascii ":" ++ decimal s.port.toNat ++ ascii "\n")]
      let stuff ← va [.text (ascii "sv !stuff CL " ++ decimal clientId.toNat ++
        ascii " connect "), .str (.fixed s.ipStr), .text (ascii ":" ++ decimal s.port.toNat)]
      clientText q2 clientId printHigh reply
      let stuff ← strAt stuff
      onOut q2 do
        msgWriteByte scmdCommand
        msgWriteString (some stuff)
    | none =>
      let reply ← va [.text (ascii "\""), .str (.fixed location),
        .text (ascii "\" could not be located\n")]
      clientText q2 clientId printHigh reply
    sendBuffer c q2

/-- `ParseTeleport`; `parse.c:134–174`. -/
def parseTeleport (c : Crypto) (q2 : Fin N) : M N Unit := do
  let clientId ← onMsg msgReadByte
  let location ← onMsg msgReadString
  teleport c q2 clientId location

/-- The body of the loop of `ParseInvite`; `parse.c:211–219`. -/
def sayAll (c : Crypto) (message : List UInt8) (s : Fin N) : M N Unit := do
  let r ← server s
  if !r.connected then pure ()
  else
    onOut s do
      msgWriteByte scmdSayAll
      msgWriteString (some message)
    sendBuffer c s

/-- The format of an invitation with and without a text; `parse.c:192–209`. -/
def inviteFormat (s : Q2Server) (clientId : UInt8) (text : List UInt8) : List Piece :=
  let player := (s.players clientId).nameStr
  if text ≠ [] then
    [.str (.fixed player), .text (ascii " invites you to play on "), .str (.fixed s.nameStr),
      .text (ascii ": "), .str (.fixed text)]
  else
    [.text (ascii "You are cordially invited to join "), .str (.fixed player),
      .text (ascii " playing on "), .str (.fixed s.nameStr)]

/-- `ParseInvite` behind its readers; `parse.c:192–219`. -/
def invite (c : Crypto) (q2 : Fin N) (clientId : UInt8) (text : List UInt8) : M N Unit := do
  let s ← server q2
  let p ← va (inviteFormat s clientId text)
  let text ← strAt p
  let message := cstr (strncpy maxStringChars text).bytes
  forM (serverList N) (sayAll c message)

/-- `ParseInvite`; `parse.c:180–220`. -/
def parseInvite (c : Crypto) (q2 : Fin N) : M N Unit := do
  let clientId ← onMsg msgReadByte
  let text ← onMsg msgReadString
  invite c q2 clientId text

/-- `ParseCommand`, where `ParseWhois` does nothing; `parse.c:113–126`. -/
def parseCommand (c : Crypto) (q2 : Fin N) : M N Unit := do
  let kind ← onMsg msgReadByte
  match CommandKind.ofByte kind with
  | some .teleport => parseTeleport c q2
  | some .invite => parseInvite c q2
  | some .whois => pure ()
  | none => pure ()

/-- The result of a pure part of the program that may fault. -/
def liftFault {α : Type} (x : Except Fault α) : M N α :=
  match x with
  | .ok a => pure a
  | .error e => throw e

/-- The key `"name"` of a userinfo string. -/
def nameKey : List UInt8 := ascii "name"

/-- The slot of a player with this name and userinfo; `parse.c:248–252`. -/
def Player.make (clientId : UInt8) (name userinfo : List UInt8) : Player :=
  ⟨clientId, strncpy 15 name, strncpy 512 userinfo⟩

/-- Replace a slot of the player table. -/
def Q2Server.setPlayer (s : Q2Server) (slot : UInt8) (p : Player) : Q2Server :=
  { s with players := Function.update s.players slot p }

/-- What `ParsePlayerConnect` and `ParsePlayerUpdate` both do behind their readers;
`parse.c:244–252`, `parse.c:287–295`. -/
def enterPlayer (q2 : Fin N) (clientId : UInt8) (userinfo : List UInt8) : M N Unit := do
  let name ← liftFault (infoValueForKey userinfo nameKey)
  modifyServer q2 fun s ↦ s.setPlayer clientId (Player.make clientId name userinfo)

/-- `ParsePlayerConnect` behind its readers; `parse.c:244–254`. -/
def playerConnect (q2 : Fin N) (clientId : UInt8) (userinfo : List UInt8) : M N Unit := do
  enterPlayer q2 clientId userinfo
  modifyServer q2 fun s ↦ { s with playercount := s.playercount + 1 }

/-- `ParsePlayerConnect`; `parse.c:235–257`. -/
def parsePlayerConnect (q2 : Fin N) : M N Unit := do
  let clientId ← onMsg msgReadByte
  let userinfo ← onMsg msgReadString
  playerConnect q2 clientId userinfo

/-- `ParsePlayerUpdate`; `parse.c:278–296`. -/
def parsePlayerUpdate (q2 : Fin N) : M N Unit := do
  let clientId ← onMsg msgReadByte
  let userinfo ← onMsg msgReadString
  enterPlayer q2 clientId userinfo

/-- `ParsePlayerDisconnect` behind its reader; `parse.c:308–309`. -/
def playerDisconnect (q2 : Fin N) (clientId : UInt8) : M N Unit :=
  modifyServer q2 fun s ↦
    { s.setPlayer clientId Player.zero with playercount := s.playercount - 1 }

/-- `ParsePlayerDisconnect`; `parse.c:302–310`. -/
def parsePlayerDisconnect (q2 : Fin N) : M N Unit := do
  let clientId ← onMsg msgReadByte
  playerDisconnect q2 clientId

/-- `ParseMap` behind its reader; `parse.c:321`. -/
def setMap (q2 : Fin N) (map : List UInt8) : M N Unit :=
  modifyServer q2 fun s ↦ { s with map := strncpy 20 map }

/-- `ParseMap`; `parse.c:316–322`. -/
def parseMap (q2 : Fin N) : M N Unit := do
  let map ← onMsg msgReadString
  setMap q2 map

/-- An entry of `ParsePlayerList` behind its readers. The slot is the loop variable before
the id was read into it; `parse.c:341–345`. -/
def listPlayer (q2 : Fin N) (slot clientId : UInt8) (userinfo : List UInt8) : M N Unit := do
  modifyServer q2 fun s ↦ s.setPlayer slot (Player.make clientId [] userinfo)
  let name ← liftFault (infoValueForKey userinfo nameKey)
  modifyServer q2 fun s ↦ s.setPlayer slot (Player.make clientId name userinfo)

/-- The loop of `ParsePlayerList`; `parse.c:336–348`. Each round moves the cursor by three
bytes or more, and the object ends after `msgSpace` bytes. -/
def playerListLoop (q2 : Fin N) : Nat → UInt8 → M N Unit
  | 0, _ => throw .overread
  | fuel + 1, i => do
    let s ← server q2
    if i < s.playercount then
      let clientId ← onMsg msgReadByte
      let userinfo ← onMsg msgReadString
      listPlayer q2 i clientId userinfo
      playerListLoop q2 fuel (clientId + 1)
    else pure ()

/-- `ParsePlayerList`; `parse.c:328–349`. -/
def parsePlayerList (q2 : Fin N) : M N Unit := do
  let count ← onMsg msgReadByte
  modifyServer q2 fun s ↦ { s with playercount := count }
  playerListLoop q2 msgSpace 0

/-- The refusal of an AUTH; `parse.c:358–364`. -/
def refuseAuth (c : Crypto) (q2 : Fin N) : M N Unit := do
  onOut q2 do
    msgWriteByte scmdError
    msgWriteByte 0xff
    msgWriteByte errUnauthorized
    msgWriteString (some (ascii "Client authentication failed"))
  sendBuffer c q2
  closeConnection q2

/-- The acknowledgement of an AUTH; `parse.c:368–369`. -/
def acceptAuth (c : Crypto) (q2 : Fin N) : M N Unit := do
  onOut q2 (msgWriteByte scmdTrusted)
  sendBuffer c q2

/-- `ParseAuth` behind `VerifyClientChallenge`; `parse.c:357–369`. It goes on to the
acknowledgement after a refusal, too. -/
def concludeAuth (c : Crypto) (q2 : Fin N) (verified : Bool) : M N Unit :=
  if verified then acceptAuth c q2
  else do
    refuseAuth c q2
    acceptAuth c q2

/-- `ParseAuth`; `parse.c:355–370`. -/
def parseAuth (c : Crypto) (q2 : Fin N) : M N Unit := do
  let verified ← verifyClientChallenge c q2
  concludeAuth c q2 verified

/-- The body of the loop of `ParseMessage`; `parse.c:33–66`. -/
def parseNext (c : Crypto) (q2 : Fin N) : M N Unit := do
  let cmd ← onMsg msgReadByte
  match ClientCmd.ofByte cmd with
  | some .auth => parseAuth c q2
  | some .quit => closeConnection q2
  | some .ping => pong c q2
  | some .print => parsePrint
  | some .command => parseCommand c q2
  | some .connect => parsePlayerConnect q2
  | some .playerupdate => parsePlayerUpdate q2
  | some .disconnect => parsePlayerDisconnect q2
  | some .playerlist => parsePlayerList q2
  | some .map => parseMap q2
  | _ => pure ()

/-- The condition of the loop of `ParseMessage` and the one under which it breaks;
`parse.c:26–31`. -/
def MsgBuffer.unread (m : MsgBuffer) : Bool := m.index < m.length && m.index ≤ msgSize

/-- The first rounds of the loop of `ParseMessage`, this many at most; `parse.c:26–67`. -/
def parseLoop (c : Crypto) (q2 : Fin N) : Nat → M N Unit
  | 0 => pure ()
  | n + 1 => do
    let w ← get
    if w.msg.unread then
      parseNext c q2
      parseLoop c q2 n
    else pure ()

/-- Each round reads a byte, so there are no more rounds than these. -/
def parseRounds : Nat := msgSize + 2

/-- The deciphered message in a buffer; all bytes of the message were fetched for it. -/
def MsgBuffer.decrypted (m : MsgBuffer) (e : List UInt8) : MsgBuffer :=
  { MsgBuffer.received e with
    touched := max m.touched (if m.length ≤ msgSize then m.length else 0) }

/-- Decipher the message if necessary; `parse.c:12–19`. -/
def decryptMessage (c : Crypto) (q2 : Fin N) : M N Unit := do
  let s ← server q2
  if !s.secure then pure ()
  else
    let m ← look World.msg
    let e ← symmetricDecrypt c q2 m
    modify fun w ↦ { w with msg := m.decrypted e }

/-- `ParseMessage`; `parse.c:7–68`. -/
def parseMessage (c : Crypto) (q2 : Fin N) : M N Unit := do
  decryptMessage c q2
  parseLoop c q2 parseRounds

end Q2Admin
