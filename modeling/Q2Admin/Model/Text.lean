import Q2Admin.Model.Connection

/-!
# Formatted text and messages to players

Library `Q2Admin.Model`. Source `util.c:143–252`. `va` formats into a ring of eight
static buffers, so a string it returned is a pointer into state that later calls
overwrite; a `CharPtr` says which memory a string argument points to.
-/

namespace Q2Admin

open Exec

variable {N : Nat}

/-- A string argument: bytes that `va` never writes, or one of its own buffers. -/
inductive CharPtr
  | fixed (s : List UInt8)
  | ring (slot : Fin 8)
  deriving DecidableEq

/-- The string behind a pointer. -/
def CharPtr.deref (rings : Fin 8 → List UInt8) : CharPtr → List UInt8
  | fixed s => s
  | ring slot => rings slot

/-- A part of a format: literal text, or a `%s` with its argument. -/
inductive Piece
  | text (s : List UInt8)
  | str (p : CharPtr)
  deriving DecidableEq

/-- What a part of a format prints. -/
def Piece.print (rings : Fin 8 → List UInt8) : Piece → List UInt8
  | text s => s
  | str p => p.deref rings

/-- The buffer that the next call of `va` writes; `util.c:195`. -/
def World.vaSlot (w : World N) : Fin 8 := ⟨w.vaIndex.toNat % 8, Nat.mod_lt _ (by decide)⟩

/-- `va`; `util.c:190–204`. `vsnprintf` keeps at most 1023 characters, and its behaviour is
undefined when an argument overlaps the destination. -/
def va (format : List Piece) : M N CharPtr := do
  let slot ← look World.vaSlot
  modify fun w ↦ { w with vaIndex := w.vaIndex + 1 }
  if .str (.ring slot) ∈ format then throw .overlap
  else
    modify fun w ↦
      let string := (format.flatMap (Piece.print w.vaStrings)).take (maxStringChars - 1)
      { w with vaStrings := Function.update w.vaStrings slot string }
    pure (.ring slot)

/-- The string behind a pointer, now. -/
def strAt (p : CharPtr) : M N (List UInt8) := look fun w ↦ p.deref w.vaStrings

/-- `ClientText`; `util.c:209–215`. -/
def clientText (q2 : Fin N) (cl type : UInt8) (text : CharPtr) : M N Unit := do
  let text ← strAt text
  onOut q2 do
    msgWriteByte scmdSayClient
    msgWriteByte cl
    msgWriteByte type
    msgWriteString (some text)

/-- `SendError`; `util.c:143–150`. -/
def sendError (c : Crypto) (q2 : Fin N) (error id : UInt8) (msg : List UInt8) : M N Unit := do
  onOut q2 do
    msgWriteByte scmdError
    msgWriteByte id
    msgWriteByte error
    msgWriteString (some msg)
  sendBuffer c q2

/-- `sizeof(players)`; `util.c:225`. -/
def teleportPlayersSize : Nat := 300
/-- `sizeof(line)`; `util.c:224`. -/
def teleportLineSize : Nat := 100

/-- `strcat(players, va("%s, ", server->players[i].name))`; `util.c:241`. -/
def catPlayer (q2 : Fin N) (players : List UInt8) (i : Nat) : M N (List UInt8) := do
  let s ← server q2
  let p ← va [.str (.fixed (s.players i.toUInt8).nameStr), .text (ascii ", ")]
  let name ← strAt p
  if teleportPlayersSize ≤ players.length + name.length then throw .overwrite
  else pure (players ++ name)

/-- `%-17s`: a string padded with blanks on the right. -/
def padRight (n : Nat) (s : List UInt8) : List UInt8 := s ++ List.replicate (n - s.length) 0x20

/-- The line of one server; `util.c:247`. -/
def teleportLine (s : Q2Server) (players : List UInt8) : List UInt8 :=
  (padRight 17 s.nameStr ++ [0x20] ++ s.mapStr ++ ascii " (" ++ decimal s.playercount.toNat ++
    ascii "/" ++ decimal s.maxclients.toNat ++ ascii ") " ++ players).take (teleportLineSize - 1)

/-- The body of the loop over the servers; `util.c:231–249`. The store that removes the last
comma is two bytes before the end of `players`, so it misses the array when no name was
collected. -/
def teleportServer (str : CharPtr) (q2 : Fin N) : M N CharPtr := do
  let s ← server q2
  if !s.trusted then pure str
  else
    let players ← (List.range s.playercount.toNat).foldlM (catPlayer q2) []
    if players.length < 2 then throw .overwrite
    else
      let line := teleportLine s (players.take (players.length - 2))
      va [.str str, .str (.fixed line), .text (ascii "\n")]

/-- `BuildTeleportServers`; `util.c:220–252`. -/
def buildTeleportServers : M N CharPtr :=
  (serverList N).foldlM teleportServer (.fixed (ascii "\n"))

end Q2Admin
