import Q2Admin.Msg.Format

/-!
# When a string is read within its bounds

Library `Q2Admin.Msg`. Source `msg.c:48–66`. Neither loop of `MSG_ReadString` has a limit: the
first one looks for a NUL behind the byte at the cursor, and the second one appends what it finds
up to there to `str[MAX_STRING_CHARS]`. They stay in `data` and in `str` exactly if the NUL is in
`data` and 1023 bytes at most are appended.
-/

namespace Q2Admin

open Exec

namespace MsgBuffer

variable {m : MsgBuffer} {j : Nat}

/-- `MSG_ReadString` has looked at bytes of `data` only, leaves the cursor behind one of them, and
returns a string for which `str` has room, with its terminator. -/
def ReadsBounded (m : MsgBuffer) : Prop :=
  ∃ v m', msgReadString.run { m with touched := 0 } = .ok v m' ∧ m'.touched ≤ msgSize ∧
    v.length < maxStringChars ∧ (0 : UInt8) ∉ v ∧ m'.index ≤ msgSize

/-- The first NUL behind the byte at the cursor. -/
structure FirstNul (m : MsgBuffer) (j : Nat) : Prop where
  behind : m.index < j
  nul : m.byteAt j = 0
  first : ∀ i, m.index < i → i < j → m.byteAt i ≠ 0

/-- The bytes from the cursor up to an offset show a string for which `str` has room. -/
def ShowsUpTo (m : MsgBuffer) (j : Nat) : Prop :=
  (shown (m.slice (j + 1 - m.index)).bytes).length < maxStringChars

private theorem byteAt_of_stands {e : List UInt8} (h : Stands m e) {k : Nat} (hk : k < e.length) :
    m.byteAt (m.index + k) = e[k] := by
  have hbyte : (m.slice e.length).bytes[k]? = some (m.byteAt (m.index + k)) := by
    unfold slice
    dsimp only
    rw [List.getElem?_map, List.getElem?_range hk]
    rfl
  rw [h.1, List.getElem?_eq_getElem hk] at hbyte
  exact (Option.some.inj hbyte).symm

/-- The wire form of a string ends with the first NUL behind its first byte. -/
theorem firstNul_of_stands {t : Text} (h : Stands m t.wire) :
    m.FirstNul (m.index + (t.rest.length + 1)) := by
  have hlen := t.wire_length
  refine ⟨by omega, ?_, fun i hlow hhigh hnul ↦ ?_⟩
  · rw [byteAt_of_stands h (by omega)]
    simp [Text.wire]
  · obtain ⟨k, rfl⟩ := Nat.exists_eq_add_of_lt hlow
    have hk : k < t.rest.length := by omega
    have hbyte := byteAt_of_stands h (k := k + 1) (by omega)
    rw [← Nat.add_assoc, hnul] at hbyte
    have hin : k + 1 < t.wire.length := by omega
    have hrest : t.wire[k + 1] = t.rest[k] := by
      simp [Text.wire, List.getElem_append_left hk]
    rw [hrest] at hbyte
    exact t.nul_free (hbyte ▸ List.getElem_mem hk)

/-- The bytes up to the first NUL are the wire form of a string. -/
theorem FirstNul.text (h : m.FirstNul j) (hj : j < msgSpace) :
    ∃ t : Text, t.wire = (m.slice (j + 1 - m.index)).bytes ∧ Stands m t.wire := by
  obtain ⟨n, rfl⟩ := Nat.exists_eq_add_of_lt h.behind
  have hcount : m.index + n + 1 + 1 - m.index = n + 1 + 1 := by omega
  have hlast : ((m.advance 1).advance n).byteAt ((m.advance 1).advance n).index = 0 := by
    have hnul := h.nul
    unfold byteAt at hnul ⊢
    rw [advance_data, advance_data, advance_index, advance_index, Nat.add_right_comm]
    exact hnul
  have hfree : (0 : UInt8) ∉ ((m.advance 1).slice n).bytes := by
    intro hmem
    obtain ⟨k, hk, hbyte⟩ := List.mem_map.mp hmem
    have hkn := List.mem_range.mp hk
    rw [advance_index] at hbyte
    refine h.first (m.index + 1 + k) (by omega) (by omega) ?_
    rw [← hbyte]
    unfold byteAt
    rw [advance_data]
  have hwire : (⟨m.byteAt m.index, ((m.advance 1).slice n).bytes, hfree⟩ : Text).wire =
      (m.slice (n + 1 + 1)).bytes := by
    rw [slice_succ, slice_add, slice_succ, slice_zero, hlast]
    rfl
  refine ⟨_, by rw [hcount]; exact hwire, ?_⟩
  rw [hwire]
  refine ⟨by rw [(m.slice (n + 1 + 1)).length_eq], .inr ?_⟩
  rw [(m.slice (n + 1 + 1)).length_eq]
  omega

/-- What a bounded read has come upon. -/
theorem ReadsBounded.exists_nul (h : m.ReadsBounded) :
    ∃ j, m.FirstNul j ∧ j < msgSize ∧ m.ShowsUpTo j := by
  obtain ⟨v, m', hrun, _, _, _, hindex⟩ := h
  obtain ⟨_, ⟨t, hfits, rfl, rfl⟩, hstands, rfl⟩ := (decodes_string _ _ _).mp hrun
  have hlen := t.wire_length
  have hwire : (m.slice t.wire.length).bytes = t.wire := hstands.1
  rw [advance_index] at hindex
  change m.index + t.wire.length ≤ msgSize at hindex
  have hcount : m.index + (t.rest.length + 1) + 1 - m.index = t.wire.length := by omega
  refine ⟨m.index + (t.rest.length + 1), firstNul_of_stands hstands, by omega, ?_⟩
  unfold ShowsUpTo
  rw [hcount, hwire]
  exact hfits

/-- `MSG_ReadString` is bounded exactly if the first NUL behind the byte at the cursor is in
`data`, and the bytes up to it show at most 1023 characters. -/
theorem readsBounded_iff (m : MsgBuffer) :
    m.ReadsBounded ↔ ∃ j, m.FirstNul j ∧ j < msgSize ∧ m.ShowsUpTo j := by
  have hspace : msgSpace = msgSize + 5 := rfl
  constructor
  · exact ReadsBounded.exists_nul
  · rintro ⟨j, hnul, hj, hshows⟩
    obtain ⟨t, hwire, hstands⟩ := hnul.text (by omega)
    have hbehind := hnul.behind
    have hlen : t.wire.length = j + 1 - m.index := by
      rw [hwire, (m.slice (j + 1 - m.index)).length_eq]
    have hfits : t.Fits := by
      unfold Text.Fits Text.value
      rw [hwire]
      exact hshows
    have hrun := reads_string hfits { m with touched := 0 } hstands
    refine ⟨_, _, hrun, ?_, hfits, nul_notMem_shown _, ?_⟩
    · refine Nat.le_trans (advance_touched_le _ _) ?_
      change max 0 (m.index + t.wire.length) ≤ _
      omega
    · rw [advance_index]
      change m.index + t.wire.length ≤ _
      omega

-- A message that is one string of 1024 characters.
private def sampleLong : MsgBuffer := .received (List.replicate 1024 0x41)

/-- A string of 1024 characters overruns `str`. -/
theorem long_string_overruns : ¬ ∀ m : MsgBuffer, m.index < msgSize → m.ReadsBounded := by
  intro hall
  have hindex : sampleLong.index = 0 := rfl
  obtain ⟨j, hnul, _, hshows⟩ := (hall sampleLong (by rw [hindex]; decide)).exists_nul
  have hsize : maxStringChars = 1024 := rfl
  -- The terminator is behind all of the characters, so they are all copied.
  have hj : 1024 ≤ j := by
    by_contra hlt
    have hbyte : (List.replicate 1024 (0x41 : UInt8)).getD j 0 = 0 := hnul.nul
    rw [List.getD_eq_getElem?_getD, List.getElem?_replicate_of_lt (by omega)] at hbyte
    cases hbyte
  obtain ⟨k, rfl⟩ := Nat.exists_eq_add_of_le hj
  have hslice : (sampleLong.slice 1024).bytes = List.replicate 1024 0x41 := by
    have hdrop : sampleLong.data.drop sampleLong.index = List.replicate 1024 0x41 ++ [] :=
      (List.append_nil _).symm
    have hbytes := slice_of_drop hdrop
    rwa [List.length_replicate] at hbytes
  have hshown : (shown (List.replicate 1024 0x41)).length = 1024 := by
    unfold shown
    rw [List.map_replicate, List.filter_replicate_of_pos (by decide), List.length_replicate]
  unfold ShowsUpTo at hshows
  rw [hindex, Nat.sub_zero, Nat.add_assoc, slice_add, hslice] at hshows
  unfold shown at hshows hshown
  rw [List.map_append, List.filter_append, List.length_append, hshown] at hshows
  omega

end MsgBuffer

end Q2Admin
