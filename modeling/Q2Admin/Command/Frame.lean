import Q2Admin.Command.Command
import Q2Admin.Msg.Format

/-!
# The wire form of commands

Library `Q2Admin.Command`. A `Frame` is a complete command on the wire. `readCommand`
returns exactly at the frames whose strings fit the static buffer of `MSG_ReadString`.
A PLAYERLIST has as many entries as drive its loop variable up to the count.
-/

namespace Q2Admin

open Exec

variable {N : Nat}

/-- The loop of `ParsePlayerList`, entered with the value `i`, makes one round for each of
the entries and then ends. -/
def Drives (count : UInt8) : UInt8 → List (UInt8 × Text) → Prop
  | i, [] => ¬ i < count
  | i, (clientId, _) :: entries => i < count ∧ Drives count (clientId + 1) entries

/-- The loop of `ParseMessage` has a handler for the command; `parse.c:35–66`. -/
def ClientCmd.handled : ClientCmd → Bool
  | null | hello | players | frag => false
  | _ => true

/-- A complete command on the wire. -/
inductive Frame
  | auth (cipher : List UInt8) (fits : cipher.length < 0x10000)
  | quit
  | ping
  | print (level : UInt8) (text : Text)
  | teleport (clientId : UInt8) (location : Text)
  | invite (clientId : UInt8) (text : Text)
  | command (kind : UInt8)
      (silent : kind ≠ CommandKind.teleport.byte ∧ kind ≠ CommandKind.invite.byte)
  | connect (clientId : UInt8) (userinfo : Text)
  | playerUpdate (clientId : UInt8) (userinfo : Text)
  | disconnect (clientId : UInt8)
  | playerList (count : UInt8) (entries : List (UInt8 × Text)) (drives : Drives count 0 entries)
  | map (name : Text)
  | other (cmd : UInt8) (unhandled : ∀ k ∈ ClientCmd.ofByte cmd, k.handled = false)

/-- The bytes of PLAYERLIST entries. -/
def entriesWire (entries : List (UInt8 × Text)) : List UInt8 :=
  entries.flatMap fun e ↦ e.1 :: e.2.wire

/-- What the reader returns for them. -/
def entriesValue (entries : List (UInt8 × Text)) : List (UInt8 × List UInt8) :=
  entries.map fun e ↦ (e.1, e.2.value)

namespace Frame

/-- The command that a frame encodes. -/
def command' : Frame → Command
  | auth cipher _ => .auth cipher
  | quit => .quit
  | ping => .ping
  | print level text => .print level text.value
  | teleport clientId location => .teleport clientId location.value
  | invite clientId text => .invite clientId text.value
  | command kind _ => .command kind
  | connect clientId userinfo => .connect clientId userinfo.value
  | playerUpdate clientId userinfo => .playerUpdate clientId userinfo.value
  | disconnect clientId => .disconnect clientId
  | playerList count entries _ => .playerList count (entriesValue entries)
  | map name => .map name.value
  | other cmd _ => .other cmd

/-- The command byte. -/
def head : Frame → UInt8
  | auth _ _ => ClientCmd.auth.byte
  | quit => ClientCmd.quit.byte
  | ping => ClientCmd.ping.byte
  | print _ _ => ClientCmd.print.byte
  | teleport _ _ | invite _ _ | command _ _ => ClientCmd.command.byte
  | connect _ _ => ClientCmd.connect.byte
  | playerUpdate _ _ => ClientCmd.playerupdate.byte
  | disconnect _ => ClientCmd.disconnect.byte
  | playerList _ _ _ => ClientCmd.playerlist.byte
  | map _ => ClientCmd.map.byte
  | other cmd _ => cmd

/-- The fields behind the command byte. -/
def fields : Frame → List UInt8
  | auth cipher _ => shortBytes cipher.length.toUInt16 ++ cipher
  | quit => []
  | ping => []
  | print level text => level :: text.wire
  | teleport clientId location => CommandKind.teleport.byte :: clientId :: location.wire
  | invite clientId text => CommandKind.invite.byte :: clientId :: text.wire
  | command kind _ => [kind]
  | connect clientId userinfo => clientId :: userinfo.wire
  | playerUpdate clientId userinfo => clientId :: userinfo.wire
  | disconnect clientId => [clientId]
  | playerList count entries _ => count :: entriesWire entries
  | map name => name.wire
  | other _ _ => []

/-- The bytes of a frame. -/
def wire (f : Frame) : List UInt8 := f.head :: f.fields

/-- The strings of a frame. -/
def texts : Frame → List Text
  | print _ text => [text]
  | teleport _ location => [location]
  | invite _ text => [text]
  | connect _ userinfo => [userinfo]
  | playerUpdate _ userinfo => [userinfo]
  | playerList _ entries _ => entries.map Prod.snd
  | map name => [name]
  | _ => []

/-- Every string of the frame fits the buffer of `MSG_ReadString`. -/
def Fits (f : Frame) : Prop := ∀ t ∈ f.texts, t.Fits

instance (f : Frame) : Decidable f.Fits := inferInstanceAs (Decidable (∀ t ∈ f.texts, t.Fits))

/-- A frame has at least its command byte. -/
theorem wire_length_pos (f : Frame) : 0 < f.wire.length := Nat.succ_pos _

end Frame

/-- The entries of a listing stand one behind the other. -/
theorem entriesWire_cons (e : UInt8 × Text) (entries : List (UInt8 × Text)) :
    entriesWire (e :: entries) = [e.1] ++ (e.2.wire ++ entriesWire entries) := by
  simp [entriesWire]

private theorem entries_length_le (entries : List (UInt8 × Text)) :
    3 * entries.length ≤ (entriesWire entries).length := by
  induction entries with
  | nil => exact Nat.le_refl _
  | cons e entries ih =>
    rw [entriesWire_cons]
    simp only [List.length_append, List.length_cons, List.length_nil, e.2.wire_length]
    omega

/-- A listing that stands in a buffer has fewer entries than the buffer has bytes. -/
theorem entries_length_lt {m : MsgBuffer} {entries : List (UInt8 × Text)}
    (h : Stands m (entriesWire entries)) : entries.length < msgSpace := by
  have hle := entries_length_le entries
  have hspace : msgSpace = 65540 := rfl
  rcases h.2 with hz | hb
  · rw [hz, List.length_nil] at hle
    omega
  · omega

/-- The loop of `ParsePlayerList` decodes the entries that drive it to its end. -/
theorem decodes_entries (count : UInt8) (fuel : Nat) (i : UInt8) :
    Decodes (readEntries count fuel i) (fun e es ↦ ∃ entries, Drives count i entries ∧
      (∀ p ∈ entries, p.2.Fits) ∧ entries.length < fuel ∧ e = entriesWire entries ∧
      es = entriesValue entries) := by
  induction fuel generalizing i with
  | zero =>
    intro m es m'
    constructor
    · intro h
      cases h
    · rintro ⟨_, ⟨entries, _, _, hlen, _⟩, _⟩
      omega
  | succ fuel ih =>
    unfold readEntries
    by_cases hi : i < count
    · rw [if_pos hi]
      refine decodes_congr (decodes_bind decodes_byte fun clientId ↦
        decodes_bind decodes_string fun ui ↦ decodes_map _ (ih (clientId + 1)))
        fun e es ↦ ?_
      constructor
      · rintro ⟨_, _, clientId, rfl, rfl, _, _, ui, rfl, ⟨t, ht, rfl, rfl⟩, _,
          ⟨entries, hd, hf, hlen, rfl, rfl⟩, rfl⟩
        refine ⟨(clientId, t) :: entries, ⟨hi, hd⟩, ?_, ?_, ?_, rfl⟩
        · intro p hp
          rcases List.mem_cons.mp hp with rfl | hp
          · exact ht
          · exact hf p hp
        · rw [List.length_cons]
          omega
        · rw [entriesWire_cons]
      · rintro ⟨entries, hd, hf, hlen, rfl, rfl⟩
        cases entries with
        | nil => exact absurd hi hd
        | cons e entries =>
          refine ⟨_, _, e.1, entriesWire_cons e entries, rfl, _, _, e.2.value, rfl,
            ⟨e.2, hf e List.mem_cons_self, rfl, rfl⟩, entriesValue entries,
            ⟨entries, hd.2, fun p hp ↦ hf p (List.mem_cons_of_mem e hp), ?_, rfl, rfl⟩, rfl⟩
          rw [List.length_cons] at hlen
          omega
    · rw [if_neg hi]
      apply decodes_congr (decodes_pure [])
      intro e es
      constructor
      · rintro ⟨rfl, rfl⟩
        exact ⟨[], hi, fun _ h ↦ absurd h List.not_mem_nil, Nat.succ_pos fuel, rfl, rfl⟩
      · rintro ⟨entries, hd, _, _, rfl, rfl⟩
        cases entries with
        | nil => exact ⟨rfl, rfl⟩
        | cons e entries => exact absurd hd.1 hi

private theorem decodes_byte_string (g : UInt8 → List UInt8 → Command) :
    Decodes (do let b ← msgReadByte; let s ← msgReadString; pure (g b s))
      (fun e cmd ↦ ∃ (b : UInt8) (t : Text), t.Fits ∧ e = b :: t.wire ∧ cmd = g b t.value) := by
  refine decodes_congr (decodes_bind decodes_byte fun b ↦ decodes_map (g b) decodes_string)
    fun e cmd ↦ ?_
  constructor
  · rintro ⟨_, _, b, rfl, rfl, _, ⟨t, ht, rfl, rfl⟩, rfl⟩
    exact ⟨b, t, ht, rfl, rfl⟩
  · rintro ⟨b, t, ht, rfl, rfl⟩
    exact ⟨[b], t.wire, b, rfl, rfl, t.value, ⟨t, ht, rfl, rfl⟩, rfl⟩

private theorem decodes_auth :
    Decodes (do
      let len ← msgReadShort
      let cipher ← msgReadData len.toNat
      pure (Command.auth cipher.bytes))
      (fun e cmd ↦ ∃ cipher : List UInt8, cipher.length < 0x10000 ∧
        e = shortBytes cipher.length.toUInt16 ++ cipher ∧ cmd = .auth cipher) := by
  refine decodes_congr (decodes_bind decodes_short fun len ↦
    decodes_map (fun d : Field len.toNat ↦ Command.auth d.bytes) (decodes_data len.toNat))
    fun e cmd ↦ ?_
  constructor
  · rintro ⟨_, _, len, rfl, rfl, d, rfl, rfl⟩
    refine ⟨d.bytes, ?_, ?_, rfl⟩
    · rw [d.length_eq]
      exact len.toNat_lt
    · rw [d.length_eq]
      congr 2
      exact (UInt16.ofNat_toNat).symm
  · rintro ⟨cipher, hlt, rfl, rfl⟩
    have hlen : cipher.length = cipher.length.toUInt16.toNat := by
      rw [Nat.toUInt16, UInt16.toNat_ofNat']
      exact (Nat.mod_eq_of_lt hlt).symm
    exact ⟨_, cipher, cipher.length.toUInt16, rfl, rfl, ⟨cipher, hlen⟩, rfl, rfl⟩

/-- A frame whose strings fit is read as its command. -/
theorem reads_frame {f : Frame} (h : f.Fits) : Reads readCommand f.wire f.command' := by
  unfold readCommand
  apply reads_bind (e := [f.head]) (reads_byte f.head)
  cases f with
  | auth cipher hlt => exact decodes_auth.reads ⟨cipher, hlt, rfl, rfl⟩
  | quit => exact (decodes_pure _).reads ⟨rfl, rfl⟩
  | ping => exact (decodes_pure _).reads ⟨rfl, rfl⟩
  | print level text =>
    exact (decodes_byte_string Command.print).reads
      ⟨level, text, h text List.mem_cons_self, rfl, rfl⟩
  | teleport clientId location =>
    exact reads_bind (e := [CommandKind.teleport.byte]) (reads_byte _)
      ((decodes_byte_string Command.teleport).reads
        ⟨clientId, location, h location List.mem_cons_self, rfl, rfl⟩)
  | invite clientId text =>
    exact reads_bind (e := [CommandKind.invite.byte]) (reads_byte _)
      ((decodes_byte_string Command.invite).reads
        ⟨clientId, text, h text List.mem_cons_self, rfl, rfl⟩)
  | command kind silent =>
    apply reads_bind (e := [kind]) (reads_byte kind)
    have hpure : Reads (pure (Command.command kind)) [] (.command kind) :=
      (decodes_pure _).reads ⟨rfl, rfl⟩
    cases hk : CommandKind.ofByte kind with
    | none => exact hpure
    | some k =>
      have hb := CommandKind.byte_of_ofByte hk
      cases k with
      | teleport => exact absurd hb.symm silent.1
      | invite => exact absurd hb.symm silent.2
      | whois => exact hpure
  | connect clientId userinfo =>
    exact (decodes_byte_string Command.connect).reads
      ⟨clientId, userinfo, h userinfo List.mem_cons_self, rfl, rfl⟩
  | playerUpdate clientId userinfo =>
    exact (decodes_byte_string Command.playerUpdate).reads
      ⟨clientId, userinfo, h userinfo List.mem_cons_self, rfl, rfl⟩
  | disconnect clientId =>
    exact reads_map Command.disconnect (reads_byte clientId)
  | playerList count entries drives =>
    refine reads_bind (e := [count]) (reads_byte count) (reads_map _ ?_)
    intro m hm
    have hfuel : entries.length < msgSpace := entries_length_lt hm
    refine (decodes_entries count msgSpace 0).reads ⟨entries, drives, ?_, hfuel, rfl, rfl⟩ m hm
    exact fun p hp ↦ h p.2 (List.mem_map_of_mem hp)
  | map name =>
    exact reads_map Command.map (reads_string (h name List.mem_cons_self))
  | other cmd unhandled =>
    have hpure : Reads (pure (Command.other cmd)) [] (.other cmd) :=
      (decodes_pure _).reads ⟨rfl, rfl⟩
    cases hk : ClientCmd.ofByte (Frame.other cmd unhandled).head with
    | none => exact hpure
    | some k =>
      have hun := unhandled k hk
      have hb : k.byte = cmd := ClientCmd.byte_of_ofByte hk
      subst hb
      cases k with
      | null => exact hpure
      | hello => exact hpure
      | players => exact hpure
      | frag => exact hpure
      | quit => cases hun
      | connect => cases hun
      | disconnect => cases hun
      | playerlist => cases hun
      | playerupdate => cases hun
      | print => cases hun
      | command => cases hun
      | map => cases hun
      | ping => cases hun
      | auth => cases hun

-- The fields of a frame with this command byte stand at the cursor, and `cmd` is what was read from
-- them.
private def Found (b : UInt8) (m : MsgBuffer) (cmd : Command) (m' : MsgBuffer) : Prop :=
  ∃ f : Frame, f.head = b ∧ f.Fits ∧ cmd = f.command' ∧ Stands m f.fields ∧
    m' = m.advance f.fields.length

private theorem found_byte_string {b : UInt8} {m m' : MsgBuffer} {cmd : Command}
    (pre : List UInt8) (hpre : Stands m pre) (g : UInt8 → List UInt8 → Command)
    (F : UInt8 → Text → Frame)
    (hF : ∀ k t, (F k t).head = b ∧ (F k t).texts = [t] ∧ (F k t).command' = g k t.value ∧
      (F k t).fields = pre ++ (k :: t.wire))
    (h : (do let k ← msgReadByte; let s ← msgReadString; pure (g k s) : BufM Command).run
      (m.advance pre.length) = .ok cmd m') : Found b m cmd m' := by
  obtain ⟨_, ⟨k, t, ht, rfl, rfl⟩, hs, rfl⟩ := (decodes_byte_string g _ cmd m').mp h
  obtain ⟨hhead, htexts, hcmd, hfields⟩ := hF k t
  refine ⟨F k t, hhead, ?_, hcmd.symm, ?_, ?_⟩
  · intro t' ht'
    rw [htexts] at ht'
    rw [List.mem_singleton.mp ht']
    exact ht
  · rw [hfields]
    exact stands_append.mpr ⟨hpre, hs⟩
  · rw [hfields, m.advance_advance, List.length_append]

private theorem found_bare {b : UInt8} {m : MsgBuffer} (f : Frame) (hhead : f.head = b)
    (htexts : f.texts = []) (hs : Stands m f.fields) :
    Found b m f.command' (m.advance f.fields.length) := by
  refine ⟨f, hhead, fun t ht ↦ ?_, rfl, hs, rfl⟩
  rw [htexts] at ht
  exact absurd ht List.not_mem_nil

private theorem found_subcommand {m m' : MsgBuffer} {cmd : Command}
    (h : readSubcommand.run m = .ok cmd m') : Found ClientCmd.command.byte m cmd m' := by
  obtain ⟨kind, m₁, hbyte, h⟩ := run_bind_ok h
  obtain ⟨_, rfl, hs, rfl⟩ := (decodes_byte m kind m₁).mp hbyte
  cases hk : CommandKind.ofByte kind with
  | none =>
    rw [hk] at h
    cases h
    refine found_bare (.command kind ⟨?_, ?_⟩) rfl rfl hs
    · rintro rfl
      cases hk
    · rintro rfl
      cases hk
  | some k =>
    have hb := CommandKind.byte_of_ofByte hk
    subst hb
    cases k with
    | teleport =>
      exact found_byte_string [_] hs Command.teleport .teleport
        (fun _ _ ↦ ⟨rfl, rfl, rfl, rfl⟩) h
    | invite =>
      exact found_byte_string [_] hs Command.invite .invite (fun _ _ ↦ ⟨rfl, rfl, rfl, rfl⟩) h
    | whois =>
      cases h
      exact found_bare (.command CommandKind.whois.byte (by decide)) rfl rfl hs

private theorem found_arguments {k : ClientCmd} {m m' : MsgBuffer} {cmd : Command}
    (h : (readArguments k).run m = .ok cmd m') : Found k.byte m cmd m' := by
  have hother (hk : k.handled = false) (hp : cmd = .other k.byte ∧ m' = m) :
      Found k.byte m cmd m' := by
    rcases hp with ⟨rfl, rfl⟩
    refine found_bare (.other k.byte ?_) rfl rfl (stands_nil _)
    intro k' hk'
    rw [ClientCmd.ofByte_byte, Option.mem_some_iff] at hk'
    rwa [← hk']
  cases k with
  | null => exact hother rfl (by cases h; exact ⟨rfl, rfl⟩)
  | hello => exact hother rfl (by cases h; exact ⟨rfl, rfl⟩)
  | players => exact hother rfl (by cases h; exact ⟨rfl, rfl⟩)
  | frag => exact hother rfl (by cases h; exact ⟨rfl, rfl⟩)
  | quit =>
    cases h
    exact found_bare .quit rfl rfl (stands_nil _)
  | ping =>
    cases h
    exact found_bare .ping rfl rfl (stands_nil _)
  | command => exact found_subcommand h
  | print =>
    exact found_byte_string [] (stands_nil _) Command.print .print
      (fun _ _ ↦ ⟨rfl, rfl, rfl, rfl⟩) h
  | connect =>
    exact found_byte_string [] (stands_nil _) Command.connect .connect
      (fun _ _ ↦ ⟨rfl, rfl, rfl, rfl⟩) h
  | playerupdate =>
    exact found_byte_string [] (stands_nil _) Command.playerUpdate .playerUpdate
      (fun _ _ ↦ ⟨rfl, rfl, rfl, rfl⟩) h
  | auth =>
    obtain ⟨_, ⟨cipher, hlt, rfl, rfl⟩, hs, rfl⟩ := (decodes_auth m cmd m').mp h
    exact found_bare (.auth cipher hlt) rfl rfl hs
  | disconnect =>
    obtain ⟨_, ⟨clientId, rfl, rfl⟩, hs, rfl⟩ :=
      (decodes_map Command.disconnect decodes_byte m cmd m').mp h
    exact found_bare (.disconnect clientId) rfl rfl hs
  | map =>
    obtain ⟨_, ⟨_, ⟨t, ht, rfl, rfl⟩, rfl⟩, hs, rfl⟩ :=
      (decodes_map Command.map decodes_string m cmd m').mp h
    refine ⟨.map t, rfl, fun t' ht' ↦ ?_, rfl, hs, rfl⟩
    rw [List.mem_singleton.mp ht']
    exact ht
  | playerlist =>
    obtain ⟨_, ⟨_, _, count, rfl, rfl, _, ⟨entries, hd, hf, _, rfl, rfl⟩, rfl⟩, hs, rfl⟩ :=
      (decodes_bind decodes_byte (fun count ↦ decodes_map (Command.playerList count)
        (decodes_entries count msgSpace 0)) m cmd m').mp h
    refine ⟨.playerList count entries hd, rfl, fun t ht ↦ ?_, rfl, hs, rfl⟩
    obtain ⟨p, hp, rfl⟩ := List.mem_map.mp ht
    exact hf p hp

/-- `readCommand` returns exactly at complete commands whose strings fit. -/
theorem decodes_command :
    Decodes readCommand (fun e cmd ↦ ∃ f : Frame, f.Fits ∧ e = f.wire ∧ cmd = f.command') := by
  intro m cmd m'
  constructor
  · intro h
    obtain ⟨b, m₁, hbyte, h⟩ := run_bind_ok h
    obtain ⟨_, rfl, hs, rfl⟩ := (decodes_byte m b m₁).mp hbyte
    have hfound : Found b (m.advance 1) cmd m' := by
      cases hk : ClientCmd.ofByte b with
      | none =>
        rw [hk] at h
        cases h
        refine found_bare (.other b ?_) rfl rfl (stands_nil _)
        intro k hk'
        rw [hk] at hk'
        cases hk'
      | some k =>
        have hb := ClientCmd.byte_of_ofByte hk
        subst hb
        rw [hk] at h
        exact found_arguments h
    rcases hfound with ⟨f, rfl, hfit, hcmd, hs', rfl⟩
    refine ⟨f.wire, ⟨f, hfit, rfl, hcmd⟩, stands_cons.mpr ⟨hs, hs'⟩, ?_⟩
    rw [m.advance_advance, Frame.wire, List.length_cons, Nat.add_comm]
  · rintro ⟨_, ⟨f, hfit, rfl, rfl⟩, hs, rfl⟩
    exact reads_frame hfit m hs

/-- A cursor behind the array ends the loop. -/
theorem unread_of_lt {m : MsgBuffer} (h : msgSize < m.index) : m.unread = false := by
  unfold MsgBuffer.unread
  rw [decide_eq_false (p := m.index ≤ msgSize) (by omega), Bool.and_false]

/-- A message that has been read to its end has no further commands. -/
theorem readCommands_of_read {m : MsgBuffer} (h : m.unread = false) (n : Nat) :
    (readCommands n).run m = .ok [] m := by
  cases n with
  | zero => rfl
  | succ n =>
    unfold readCommands
    rw [run_bind_of_ok (EStateM.run_get m), if_neg (by simp [h])]
    rfl

/-- The first command of a message and those behind it. -/
theorem readCommands_of_unread {m : MsgBuffer} (h : m.unread = true) (n : Nat) :
    (readCommands (n + 1)).run m =
      (do let cmd ← readCommand; let cmds ← readCommands n; pure (cmd :: cmds)).run m := by
  conv_lhs => unfold readCommands
  rw [run_bind_of_ok (EStateM.run_get m), if_pos h]

/-- Commands that have been read were none, or a first one and those behind it. -/
theorem readCommands_ok {n : Nat} {m m' : MsgBuffer} {cmds : List Command}
    (h : (readCommands (n + 1)).run m = .ok cmds m') :
    (m.unread = false ∧ cmds = []) ∨
    (m.unread = true ∧ ∃ cmd rest m₁, readCommand.run m = .ok cmd m₁ ∧
      (readCommands n).run m₁ = .ok rest m' ∧ cmds = cmd :: rest) := by
  cases hu : m.unread with
  | false =>
    rw [readCommands_of_read hu] at h
    cases h
    exact .inl ⟨rfl, rfl⟩
  | true =>
    rw [readCommands_of_unread hu] at h
    obtain ⟨cmd, m₁, h₁, h⟩ := run_bind_ok h
    obtain ⟨rest, m₂, h₂, h⟩ := run_bind_ok h
    cases h
    exact .inr ⟨rfl, cmd, rest, m₁, h₁, h₂, rfl⟩

/-- Every command moves the cursor. -/
theorem readCommand_index_lt {m m' : MsgBuffer} {cmd : Command}
    (h : readCommand.run m = .ok cmd m') : m.index < m'.index := by
  obtain ⟨_, ⟨f, _, rfl, _⟩, _, rfl⟩ := (decodes_command m cmd m').mp h
  have hpos := f.wire_length_pos
  rw [m.advance_index]
  omega

/-- A message has no more commands than there are positions for the cursor. -/
theorem readCommands_length_le {n : Nat} {m m' : MsgBuffer} {cmds : List Command}
    (h : (readCommands n).run m = .ok cmds m') : cmds.length ≤ msgSize + 1 - m.index := by
  induction n generalizing m cmds with
  | zero =>
    cases h
    exact Nat.zero_le _
  | succ n ih =>
    rcases readCommands_ok h with ⟨_, rfl⟩ | ⟨hu, cmd, rest, m₁, h₁, h₂, rfl⟩
    · exact Nat.zero_le _
    · have hlt := readCommand_index_lt h₁
      have hrest := ih h₂
      have hindex : m.index ≤ msgSize := of_decide_eq_true (Bool.and_eq_true_iff.mp hu).2
      rw [List.length_cons]
      omega

/-- Fewer rounds read the first ones of the same commands. -/
theorem readCommands_take {n k : Nat} {m m' : MsgBuffer} {cmds : List Command}
    (h : (readCommands n).run m = .ok cmds m') (hk : k ≤ n) :
    ∃ m'', (readCommands k).run m = .ok (cmds.take k) m'' := by
  induction n generalizing k m cmds with
  | zero =>
    rw [Nat.le_zero.mp hk]
    exact ⟨m, rfl⟩
  | succ n ih =>
    cases k with
    | zero => exact ⟨m, rfl⟩
    | succ k =>
      rcases readCommands_ok h with ⟨hu, rfl⟩ | ⟨hu, cmd, rest, m₁, h₁, h₂, rfl⟩
      · exact ⟨m, readCommands_of_read hu _⟩
      · obtain ⟨m'', hr⟩ := ih h₂ (Nat.le_of_succ_le_succ hk)
        refine ⟨m'', ?_⟩
        rw [readCommands_of_unread hu, run_bind_of_ok h₁, run_bind_of_ok hr]
        rfl

/-- `parseRounds` rounds are enough: further ones find nothing to read. -/
theorem readCommands_more {n : Nat} {m m' : MsgBuffer} {cmds : List Command}
    (h : (readCommands n).run m = .ok cmds m') (hn : msgSize < m.index + n) (k : Nat) :
    (readCommands (n + k)).run m = .ok cmds m' := by
  induction n generalizing m cmds with
  | zero =>
    cases h
    exact readCommands_of_read (unread_of_lt hn) _
  | succ n ih =>
    rcases readCommands_ok h with ⟨hu, _⟩ | ⟨hu, cmd, rest, m₁, h₁, h₂, rfl⟩
    · rw [readCommands_of_read hu] at h ⊢
      exact h
    · have hlt := readCommand_index_lt h₁
      have hr := ih h₂ (by omega)
      rw [Nat.add_right_comm, readCommands_of_unread hu, run_bind_of_ok h₁, run_bind_of_ok hr]
      rfl

/-- Whatever the number of rounds, they read a beginning of the commands of the message. -/
theorem readCommands_cut {n : Nat} {m m₁ m₂ : MsgBuffer} {all cmds : List Command}
    (hall : (readCommands parseRounds).run m = .ok all m₁)
    (h : (readCommands n).run m = .ok cmds m₂) : cmds = all.take n := by
  have hmore : (readCommands (parseRounds + n)).run m = .ok all m₁ :=
    readCommands_more hall (by unfold parseRounds; omega) n
  obtain ⟨m', ht⟩ := readCommands_take hmore (Nat.le_add_left n parseRounds)
  rw [h] at ht
  cases ht
  rfl

/-- As many rounds as there are commands in a beginning of the message read these. -/
theorem readCommands_length {m m' : MsgBuffer} {cmds rest : List Command}
    (hall : (readCommands parseRounds).run m = .ok (cmds ++ rest) m') :
    ∃ m'', (readCommands cmds.length).run m = .ok cmds m'' := by
  have hmore := readCommands_more hall (by unfold parseRounds; omega) cmds.length
  obtain ⟨m'', ht⟩ := readCommands_take hmore (Nat.le_add_left cmds.length parseRounds)
  exact ⟨m'', by rw [ht, List.take_left]⟩

/-- The bytes of several frames. -/
def framesWire (fs : List Frame) : List UInt8 := fs.flatMap Frame.wire

/-- The frames of a stream stand one behind the other. -/
theorem framesWire_cons (f : Frame) (fs : List Frame) :
    framesWire (f :: fs) = f.wire ++ framesWire fs := List.flatMap_cons

/-- A stream has at least one byte for each frame. -/
theorem framesWire_length_le (fs : List Frame) : fs.length ≤ (framesWire fs).length := by
  induction fs with
  | nil => exact Nat.le_refl _
  | cons f fs ih =>
    have hpos := f.wire_length_pos
    rw [framesWire_cons, List.length_append, List.length_cons]
    omega

/-- A message of complete commands is read as these to its end. -/
theorem readCommands_frames {fs : List Frame} (hfit : ∀ f ∈ fs, f.Fits) {n : Nat}
    (hn : fs.length ≤ n) {m : MsgBuffer} (hs : Stands m (framesWire fs))
    (hend : m.index + (framesWire fs).length = m.length) (hsize : m.length ≤ msgSize) :
    (readCommands n).run m =
      .ok (fs.map Frame.command') (m.advance (framesWire fs).length) := by
  induction fs generalizing n m with
  | nil =>
    have hu : m.unread = false := by
      unfold MsgBuffer.unread
      rw [decide_eq_false (p := m.index < m.length) (by rw [← hend]; exact Nat.lt_irrefl _),
        Bool.false_and]
    exact readCommands_of_read hu n
  | cons f fs ih =>
    rw [List.length_cons] at hn
    obtain ⟨n, rfl⟩ := Nat.exists_eq_add_one_of_ne_zero (by omega : n ≠ 0)
    rw [framesWire_cons] at hs hend ⊢
    rw [List.length_append] at hend ⊢
    obtain ⟨hf, hfs⟩ := stands_append.mp hs
    have hpos := f.wire_length_pos
    have hu : m.unread = true := by
      unfold MsgBuffer.unread
      rw [decide_eq_true (p := m.index < m.length) (by omega),
        decide_eq_true (p := m.index ≤ msgSize) (by omega), Bool.and_true]
    have hrest := ih (fun g hg ↦ hfit g (List.mem_cons_of_mem f hg)) (n := n) (by omega) hfs
      (by rw [m.advance_index, m.advance_length]; omega) (by rw [m.advance_length]; exact hsize)
    rw [readCommands_of_unread hu, run_bind_of_ok (reads_frame (hfit f List.mem_cons_self) m hf),
      run_bind_of_ok hrest, m.advance_advance]
    rfl

end Q2Admin
