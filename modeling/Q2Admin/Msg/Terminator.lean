import Q2Admin.Msg.RoundTrip
import Q2Admin.Model.Protocol

/-!
# The terminator of an empty string

Library `Q2Admin.Msg`. Source `msg.c:48–66` and `msg.c:92–112`. `MSG_ReadString` starts
its scan behind the first byte. At any place in a message it returns a string that has a
character; the terminator of an empty one it takes for a character, and the string goes
on to the terminator behind.
-/

namespace Q2Admin

open Exec

/-- At most 1023 seven-bit characters, none of them NUL. -/
structure WireString where
  chars : List UInt8
  short : chars.length < maxStringChars
  plain : ∀ b ∈ chars, b ≠ 0 ∧ b < 0x80

/-- A string with bytes in front of it and behind it in one message. -/
structure Placement where
  before : List UInt8
  str : WireString
  after : List UInt8
  fits : before.length + (str.chars.length + 1) + after.length ≤ msgSize

namespace Placement

/-- Write the message. -/
def write (p : Placement) : BufM Unit := do
  msgWriteData p.before p.before.length
  msgWriteString (some p.str.chars)
  msgWriteData p.after p.after.length

/-- The message, with the cursor at the encoding of the string. -/
def message (p : Placement) : MsgBuffer :=
  { MsgBuffer.ofBytes (p.before ++ (p.str.chars ++ [0]) ++ p.after) with index := p.before.length }

/-- From the encoding that `MSG_WriteString` made, `MSG_ReadString` returns the string, and
the bytes behind it are left. -/
def ReadsBack (p : Placement) : Prop :=
  ∃ m m' : MsgBuffer, p.write.run .zero = .ok () m ∧
    msgReadString.run { m with index := p.before.length } = .ok p.str.chars m' ∧
    m'.index = p.before.length + (p.str.chars.length + 1) ∧ m'.data.drop m'.index = p.after

/-- The writers of `msg.c` put that message into a zeroed buffer. -/
theorem write_run (p : Placement) :
    p.write.run .zero =
      .ok () (MsgBuffer.ofBytes (p.before ++ (p.str.chars ++ [0]) ++ p.after)) := by
  have hfit := p.fits
  have hw : Writes p.write (p.before ++ ((p.str.chars ++ [0]) ++ p.after)) := by
    have hb := writes_data p.before p.before.length (Nat.le_refl _)
    have ha := writes_data p.after p.after.length (Nat.le_refl _)
    rw [List.take_length] at hb ha
    exact writes_bind hb (writes_bind (writes_string p.str.chars) ha)
  have h := hw [] (by simp only [List.length_append, List.length_singleton, List.length_nil]; omega)
  rwa [List.nil_append, ← List.append_assoc] at h

/-- What is left of the message at the string. -/
theorem message_drop (p : Placement) :
    p.message.data.drop p.message.index = (p.str.chars ++ [0]) ++ p.after := by
  change (p.before ++ (p.str.chars ++ [0]) ++ p.after).drop p.before.length = _
  rw [List.append_assoc, List.drop_left]

/-- The message fits the array. -/
theorem message_data_le (p : Placement) : p.message.data.length ≤ msgSpace := by
  have hfit := p.fits
  have hspace : msgSize ≤ msgSpace := Nat.le_add_right _ _
  change (p.before ++ (p.str.chars ++ [0]) ++ p.after).length ≤ _
  simp only [List.length_append, List.length_singleton]
  omega

/-- A string with a character is read back, whatever stands around it. -/
theorem readsBack_of_ne_nil (p : Placement) (h : p.str.chars ≠ []) : p.ReadsBack := by
  let s : PlainString := ⟨p.str.chars, h, p.str.short, p.str.plain⟩
  have hdrop : p.message.data.drop p.message.index = s.text.wire ++ p.after := by
    rw [s.text_wire]
    exact p.message_drop
  have hstands := stands_of_drop p.message_data_le hdrop
  have hrun := reads_string s.text_fits p.message hstands
  rw [s.text_value] at hrun
  have hlen : s.text.wire.length = p.str.chars.length + 1 := by
    rw [s.text_wire, List.length_append, List.length_singleton]
  refine ⟨_, _, p.write_run, hrun, ?_, ?_⟩
  · rw [MsgBuffer.advance_index, hlen]
    rfl
  · rw [MsgBuffer.advance_index, MsgBuffer.advance_data, ← List.drop_drop, hdrop,
      List.drop_left]

/-- However `MSG_ReadString` returns, it has passed over two bytes or more. -/
theorem msgReadString_advances {m m' : MsgBuffer} {v : List UInt8}
    (h : msgReadString.run m = .ok v m') : m.index + 2 ≤ m'.index := by
  obtain ⟨_, ⟨t, _, rfl, _⟩, _, rfl⟩ := (decodes_string m v m').mp h
  rw [MsgBuffer.advance_index, t.wire_length]
  omega

/-- The strings that `MSG_ReadString` returns from the encoding that `MSG_WriteString`
made, with the cursor behind it, are those with a character. -/
theorem readsBack_iff (p : Placement) : p.ReadsBack ↔ p.str.chars ≠ [] := by
  constructor
  · rintro ⟨m, m', _, hrun, hindex, _⟩ hnil
    have hadv : p.before.length + 2 ≤ m'.index := msgReadString_advances hrun
    rw [hnil, List.length_nil] at hindex
    omega
  · exact p.readsBack_of_ne_nil

end Placement

/-- Behind the terminator of an empty string the string that follows is read, and one byte
more than its encoding is passed over. -/
theorem reads_behind_empty {s : List UInt8} (hs : (0 : UInt8) ∉ s)
    (hfit : (shown s).length < maxStringChars) :
    Reads msgReadString (0 :: (s ++ [0])) (shown s) := by
  have hvalue : (⟨0, s, hs⟩ : Text).value = shown s := by
    change shown (0 :: (s ++ [0])) = shown s
    simp [shown]
  have h := reads_string (t := ⟨0, s, hs⟩) (by rw [Text.Fits, hvalue]; exact hfit)
  rwa [hvalue] at h

-- A teleport without a location, and the PING behind it.
private def teleportThenPing : Placement where
  before := [ClientCmd.command.byte, CommandKind.teleport.byte, 3]
  str := ⟨[], by decide, by simp⟩
  after := [ClientCmd.ping.byte]
  fits := by decide

/-- The PING is read as the location, and the message is over. -/
theorem not_readsBack :
    (∃ m, msgReadString.run teleportThenPing.message = .ok [ClientCmd.ping.byte] m ∧
      m.length < m.index) ∧
    ¬ ∀ p : Placement, p.ReadsBack := by
  have hstands : Stands teleportThenPing.message (0 :: ([ClientCmd.ping.byte] ++ [0])) :=
    ⟨by decide, .inr (by decide)⟩
  have hrun := reads_behind_empty (s := [ClientCmd.ping.byte]) (by decide) (by decide) _ hstands
  refine ⟨⟨_, hrun, by decide⟩, ?_⟩
  intro h
  obtain ⟨m, m', hw, hr, _⟩ := h teleportThenPing
  cases teleportThenPing.write_run.symm.trans hw
  cases hrun.symm.trans hr

end Q2Admin
