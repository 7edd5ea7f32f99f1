import Q2Admin.Base.Exec
import Q2Admin.Base.CString

/-!
# Message buffers

Library `Q2Admin.Msg`. Source `msg.c` and `msg_buffer_t` of `server.h:105–109`.
Readers and writers share one cursor and check no bound. An access outside the buffer
is undefined, so the model faults there; a read is in the object up to its tail
padding, which every `memset` of the struct clears.
-/

namespace Q2Admin

open Exec

/-- What ends a run of the program without a result. -/
inductive Fault
  /-- A read outside the object that is read. -/
  | overread
  /-- A store outside the object that is written. -/
  | overwrite
  /-- `vsnprintf` with an argument inside its own destination. -/
  | overlap
  /-- A field or a call through a null pointer. -/
  | nullDeref
  deriving DecidableEq, Repr

/-- `sizeof(msg->data)`; `server.h:108`. -/
def msgSize : Nat := 0xffff

/-- Bytes of the struct from `data` on: the array and the five bytes of tail padding that
round `sizeof(msg_buffer_t)` up to a multiple of eight. -/
def msgSpace : Nat := msgSize + 5

/-- `MAX_STRING_CHARS`; `server.h:70`. -/
def maxStringChars : Nat := 1024

/-- A buffer; `server.h:105–109`. Bytes of `data` behind the list are zero.
`touched` is no field of the struct: it is one more than the highest offset of `data`
that a reader has fetched. -/
structure MsgBuffer where
  length : Nat
  index : Nat
  data : List UInt8
  touched : Nat
  deriving DecidableEq

namespace MsgBuffer

/-- `memset(&msg, 0, sizeof(msg_buffer_t))`. -/
def zero : MsgBuffer := ⟨0, 0, [], 0⟩

/-- The byte at an offset of `data`. -/
def byteAt (m : MsgBuffer) (i : Nat) : UInt8 := m.data.getD i 0

/-- The bytes `data[index] … data[index + len - 1]`. -/
def slice (m : MsgBuffer) (len : Nat) : Field len :=
  ⟨(List.range len).map fun k ↦ m.byteAt (m.index + k), by simp⟩

/-- The buffer after its cursor has passed over `k` fetched bytes. -/
def advance (m : MsgBuffer) (k : Nat) : MsgBuffer :=
  if k = 0 then m
  else { m with index := m.index + k, touched := max m.touched (m.index + k) }

/-- The message in the buffer: `length` bytes from the start of `data`. -/
def contents (m : MsgBuffer) : List UInt8 := (List.range m.length).map m.byteAt

/-- An output buffer that holds the bytes written so far. -/
def ofBytes (bs : List UInt8) : MsgBuffer := ⟨bs.length, bs.length, bs, 0⟩

/-- What `recv` leaves in the zeroed buffer of the event loop. -/
def received (bs : List UInt8) : MsgBuffer := ⟨bs.length, 0, bs, 0⟩

end MsgBuffer

/-- Programs on one buffer. -/
abbrev BufM := EStateM Fault MsgBuffer

/-- Fetch `data[i]`. -/
def msgFetch (i : Nat) : BufM UInt8 := do
  modify fun m ↦ { m with touched := max m.touched (i + 1) }
  let m ← get
  if i < msgSpace then pure (m.byteAt i) else throw .overread

/-- `MSG_ReadByte`, and every `data[index++]`; `msg.c:13–18`. -/
def msgReadByte : BufM UInt8 := do
  let m ← get
  let b ← msgFetch m.index
  modify fun m ↦ { m with index := m.index + 1 }
  pure b

/-- `MSG_ReadData`; `msg.c:6–10`. -/
def msgReadData (len : Nat) : BufM (Field len) := do
  let m ← get
  if len ≠ 0 then
    modify fun m ↦ { m with touched := max m.touched (m.index + len) }
    if msgSpace < m.index + len then throw .overread
  modify fun m ↦ { m with index := m.index + len }
  pure (m.slice len)

/-- `MSG_ReadShort`, its operands from left to right; `msg.c:28–32`. -/
def msgReadShort : BufM UInt16 := do
  let b0 ← msgReadByte
  let b1 ← msgReadByte
  pure (b0.toUInt16 + (b1.toUInt16 <<< 8))

/-- `MSG_ReadLong`, its operands from left to right; `msg.c:40–46`. Every caller stores
the result in a `uint32_t`. -/
def msgReadLong : BufM UInt32 := do
  let b0 ← msgReadByte
  let b1 ← msgReadByte
  let b2 ← msgReadByte
  let b3 ← msgReadByte
  pure (b0.toUInt32 + (b1.toUInt32 <<< 8) + (b2.toUInt32 <<< 16) + (b3.toUInt32 <<< 24))

/-- The scan of `MSG_ReadString` for its terminator; `msg.c:54–56`. It looks at the byte
behind the cursor first, so a terminator at the cursor itself is passed over. It leaves
the object at the latest after `msgSpace` bytes, which is the fuel it starts with. -/
def msgScan (index : Nat) : Nat → Nat → BufM Nat
  | 0, _ => throw .overread
  | fuel + 1, len => do
    let b ← msgFetch (index + (len + 1))
    if b ≠ 0 then msgScan index fuel (len + 1) else pure (len + 1)

/-- The copy loop of `MSG_ReadString`; `msg.c:60–63`. A byte that is zero without its top
bit appends nothing. -/
def msgAppend : Nat → List UInt8 → BufM (List UInt8)
  | 0, str => pure str
  | n + 1, str => do
    let b ← msgReadByte
    let character := b &&& 0x7f
    if character = 0 then msgAppend n str
    else if maxStringChars ≤ str.length + 1 then throw .overwrite
    else msgAppend n (str ++ [character])

/-- `MSG_ReadString`; `msg.c:48–66`. -/
def msgReadString : BufM (List UInt8) := do
  let m ← get
  let len ← msgScan m.index msgSpace 0
  msgAppend (len + 1) []

/-- Store one byte of an array whose bytes behind the list are zero. -/
def storeAt (data : List UInt8) (i : Nat) (b : UInt8) : List UInt8 :=
  if i < data.length then data.set i b
  else data ++ List.replicate (i - data.length) 0 ++ [b]

/-- `data[index++] = b`. -/
def msgPut (b : UInt8) : BufM Unit := do
  let m ← get
  if m.index < msgSize then
    set { m with data := storeAt m.data m.index b, index := m.index + 1 }
  else throw .overwrite

/-- Add to the length of what has been written. -/
def msgGrow (k : Nat) : BufM Unit := modify fun m ↦ { m with length := m.length + k }

/-- `MSG_WriteByte`; `msg.c:69–74`. -/
def msgWriteByte (b : UInt8) : BufM Unit := do
  msgPut b
  msgGrow 1

/-- `MSG_WriteShort`; `msg.c:76–81`. -/
def msgWriteShort (s : UInt16) : BufM Unit := do
  msgPut (s &&& 0xff).toUInt8
  msgPut (s >>> 8).toUInt8
  msgGrow 2

/-- `MSG_WriteLong`; `msg.c:83–90`. -/
def msgWriteLong (l : UInt32) : BufM Unit := do
  msgPut (l &&& 0xff).toUInt8
  msgPut ((l >>> 8) &&& 0xff).toUInt8
  msgPut ((l >>> 16) &&& 0xff).toUInt8
  msgPut (l >>> 24).toUInt8
  msgGrow 4

/-- `MSG_WriteData` of `length` bytes of an object that holds `data`; `msg.c:106–112`. -/
def msgWriteData : List UInt8 → Nat → BufM Unit
  | _, 0 => pure ()
  | [], _ + 1 => throw .overread
  | b :: data, length + 1 => do
    msgWriteByte b
    msgWriteData data length

/-- `MSG_WriteString`, whose argument may be a null pointer; `msg.c:92–104`. -/
def msgWriteString : Option (List UInt8) → BufM Unit
  | none => msgWriteByte 0
  | some str => msgWriteData (str ++ [0]) (str.length + 1)

end Q2Admin
