import Q2Admin.Msg.Format

/-!
# Round trip of the buffer codec

Library `Q2Admin.Msg`. A message is a sequence of typed fields. Whatever sequence the
writers of `msg.c` put into a zeroed buffer, the matching readers get back from the
start of it, each one leaving the cursor at the end of its field.
-/

namespace Q2Admin

open Exec

/-- The strings the codec is meant for: one to 1023 seven-bit characters, none of them NUL. -/
structure PlainString where
  chars : List UInt8
  nonempty : chars ≠ []
  short : chars.length < maxStringChars
  plain : ∀ b ∈ chars, b ≠ 0 ∧ b < 0x80

/-- A byte of seven bits passes the mask of `MSG_ReadString` unchanged. -/
theorem and_mask_of_lt {b : UInt8} (h : b < 0x80) : b &&& 0x7f = b := by
  apply UInt8.toNat_inj.mp
  have hb : b.toNat < 128 := UInt8.lt_iff_toNat_lt.mp h
  rw [UInt8.toNat_and, show (0x7f : UInt8).toNat = 2 ^ 7 - 1 from rfl,
    Nat.and_two_pow_sub_one_eq_mod]
  omega

/-- Seven-bit text is shown as it is. -/
theorem shown_of_plain {l : List UInt8} (h : ∀ b ∈ l, b ≠ 0 ∧ b < 0x80) : shown l = l := by
  induction l with
  | nil => rfl
  | cons b l ih =>
    obtain ⟨hb0, hb⟩ := h b List.mem_cons_self
    have hm := and_mask_of_lt hb
    rw [shown_cons_of_ne (by rw [hm]; exact hb0), hm,
      ih fun c hc ↦ h c (List.mem_cons_of_mem b hc)]

namespace PlainString

/-- The string as the reader finds it. -/
def text (s : PlainString) : Text :=
  ⟨s.chars.head s.nonempty, s.chars.tail,
    fun h ↦ (s.plain 0 (List.mem_of_mem_tail h)).1 rfl⟩

/-- A plain string is its characters and a NUL on the wire. -/
theorem text_wire (s : PlainString) : s.text.wire = s.chars ++ [0] := by
  rw [Text.wire, text, ← List.cons_append, List.cons_head_tail]

/-- A plain string is shown as it is. -/
theorem text_value (s : PlainString) : s.text.value = s.chars := by
  have hnul : shown [0] = [] := rfl
  rw [Text.value, s.text_wire, shown, List.map_append, List.filter_append]
  change shown s.chars ++ shown [0] = s.chars
  rw [shown_of_plain s.plain, hnul, List.append_nil]

/-- A plain string fits the buffer of `MSG_ReadString`. -/
theorem text_fits (s : PlainString) : s.text.Fits := by
  rw [Text.Fits, s.text_value]
  exact s.short

end PlainString

/-- A typed field of a message. -/
inductive MsgField
  | byte (b : UInt8)
  | short (s : UInt16)
  | long (l : UInt32)
  | data (d : List UInt8)
  | string (s : PlainString)

/-- What a reader returns for a field. -/
inductive FieldValue
  | byte (b : UInt8)
  | short (s : UInt16)
  | long (l : UInt32)
  | data (d : List UInt8)
  | string (s : List UInt8)
  deriving DecidableEq

namespace MsgField

/-- The content of a field. -/
def value : MsgField → FieldValue
  | .byte b => .byte b
  | .short s => .short s
  | .long l => .long l
  | .data d => .data d
  | .string s => .string s.chars

/-- The encoding of a field. -/
def wire : MsgField → List UInt8
  | .byte b => [b]
  | .short s => shortBytes s
  | .long l => longBytes l
  | .data d => d
  | .string s => s.chars ++ [0]

/-- The writer of `msg.c` for a field. -/
def write : MsgField → BufM Unit
  | .byte b => msgWriteByte b
  | .short s => msgWriteShort s
  | .long l => msgWriteLong l
  | .data d => msgWriteData d d.length
  | .string s => msgWriteString (some s.chars)

/-- The matching reader; the length of raw data is known to it. -/
def read : MsgField → BufM FieldValue
  | .byte _ => do pure (.byte (← msgReadByte))
  | .short _ => do pure (.short (← msgReadShort))
  | .long _ => do pure (.long (← msgReadLong))
  | .data d => do pure (.data (← msgReadData d.length).bytes)
  | .string _ => do pure (.string (← msgReadString))

/-- Each writer appends the encoding of its field. -/
theorem writes (f : MsgField) : Writes f.write f.wire := by
  cases f with
  | byte b => exact writes_byte b
  | short s => exact writes_short s
  | long l => exact writes_long l
  | data d =>
    have h := writes_data d d.length (Nat.le_refl _)
    rwa [List.take_length] at h
  | string s => exact writes_string s.chars

/-- Each reader consumes exactly the encoding of its field and returns its content. -/
theorem reads (f : MsgField) : Reads f.read f.wire f.value := by
  cases f with
  | byte b => exact reads_map FieldValue.byte (reads_byte b)
  | short s => exact reads_map FieldValue.short (reads_short s)
  | long l => exact reads_map FieldValue.long (reads_long l)
  | data d => exact reads_map (fun f : Field d.length ↦ FieldValue.data f.bytes) (reads_data d)
  | string s =>
    have h := reads_map FieldValue.string (reads_string s.text_fits)
    rwa [s.text_wire, s.text_value] at h

end MsgField

/-- Write a sequence of fields in order. -/
def writeFields : List MsgField → BufM Unit
  | [] => pure ()
  | f :: fs => do
    f.write
    writeFields fs

/-- Read a sequence of fields in order, noting the cursor after each one. -/
def readFields : List MsgField → BufM (List (FieldValue × Nat))
  | [] => pure []
  | f :: fs => do
    let v ← f.read
    let m ← get
    let rest ← readFields fs
    pure ((v, m.index) :: rest)

/-- The encoding of a sequence of fields. -/
def wireOf (fs : List MsgField) : List UInt8 := fs.flatMap MsgField.wire

/-- The fields stand one behind the other. -/
theorem wireOf_cons (f : MsgField) (fs : List MsgField) :
    wireOf (f :: fs) = f.wire ++ wireOf fs := List.flatMap_cons

/-- The contents of a sequence of fields that starts at an offset, each with the end of
its encoding. -/
def placed : Nat → List MsgField → List (FieldValue × Nat)
  | _, [] => []
  | pos, f :: fs => (f.value, pos + f.wire.length) :: placed (pos + f.wire.length) fs

/-- The writers of the fields write their wire forms. -/
theorem writes_fields (fs : List MsgField) : Writes (writeFields fs) (wireOf fs) := by
  induction fs with
  | nil => exact writes_pure
  | cons f fs ih =>
    rw [wireOf_cons]
    exact writes_bind f.writes ih

/-- Reading a sequence of fields where it stands in a buffer. -/
theorem readFields_run (fs : List MsgField) (m : MsgBuffer) (post : List UInt8)
    (hl : m.data.length ≤ msgSpace) (h : m.data.drop m.index = wireOf fs ++ post) :
    (readFields fs).run m = .ok (placed m.index fs) (m.advance (wireOf fs).length) := by
  induction fs generalizing m with
  | nil => rfl
  | cons f fs ih =>
    rw [wireOf_cons, List.append_assoc] at h
    have hrest : (m.advance f.wire.length).data.drop (m.advance f.wire.length).index =
        wireOf fs ++ post := by
      rw [m.advance_data, m.advance_index, ← List.drop_drop, h, List.drop_left]
    unfold readFields
    rw [run_bind_of_ok (f.reads m (stands_of_drop hl h)), run_bind_of_ok (EStateM.run_get _),
      run_bind_of_ok (ih _ (by rw [m.advance_data]; exact hl) hrest), m.advance_advance,
      m.advance_index, wireOf_cons, List.length_append]
    rfl

/-- Every sequence of fields that fits a buffer is read back from it as it was written:
the same contents, the cursor after each read at the end of that field's encoding, and
after the last one at the length of the message. -/
theorem readFields_writeFields (fs : List MsgField) (h : (wireOf fs).length ≤ msgSize) :
    ∃ m m' : MsgBuffer,
      (writeFields fs).run MsgBuffer.zero = .ok () m ∧
      m.length = (wireOf fs).length ∧
      (readFields fs).run { m with index := 0 } = .ok (placed 0 fs) m' ∧
      m'.index = m'.length := by
  have hw := writes_fields fs [] (by simpa using h)
  have hm : MsgBuffer.ofBytes [] = MsgBuffer.zero := rfl
  rw [hm, List.nil_append] at hw
  have hspace : (wireOf fs).length ≤ msgSpace := Nat.le_trans h (by decide)
  have hr := readFields_run fs { MsgBuffer.ofBytes (wireOf fs) with index := 0 } []
    hspace (List.append_nil _).symm
  refine ⟨_, _, hw, rfl, hr, ?_⟩
  rw [MsgBuffer.advance_index, MsgBuffer.advance_length]
  exact Nat.zero_add _

/-- A message with a byte, the extreme short and long values, empty and raw data and a
string of one character. -/
theorem readFields_writeFields_sample :
    ∃ m m' : MsgBuffer,
      (writeFields [.byte 0xff, .short 0xffff, .long 0xffffffff, .data [], .data [0, 0x80],
        .string ⟨[0x7f], by decide, by decide, by simp⟩]).run MsgBuffer.zero = .ok () m ∧
      m.length = 11 ∧
      (readFields [.byte 0xff, .short 0xffff, .long 0xffffffff, .data [], .data [0, 0x80],
        .string ⟨[0x7f], by decide, by decide, by simp⟩]).run { m with index := 0 } =
        .ok [(.byte 0xff, 1), (.short 0xffff, 3), (.long 0xffffffff, 7), (.data [], 7),
          (.data [0, 0x80], 9), (.string [0x7f], 11)] m' ∧
      m'.index = m'.length :=
  readFields_writeFields [.byte 0xff, .short 0xffff, .long 0xffffffff, .data [],
    .data [0, 0x80], .string ⟨[0x7f], by decide, by decide, by simp⟩] (by decide)

end Q2Admin
